import Invariance.Proofs.FiniteState.Replays.Universes
import Invariance.Proofs.FiniteState.Twins.Sessions

/-!
The operations of the backend once more. The second time the universe has all the terms that the
first time leaves behind: the answers are the same, and nothing is added to it.
-/

namespace Invariance.FiniteState.Session

open Universe

variable {M : Machine} {v : Universe} {α β : Type} {w w' w'' t : Session} {f : Formula}

/-- What an operation leaves of a session, beside what it is there to change. -/
structure Onto (w w' : Session) : Prop where
  terms : Extends w.terms w'.terms
  forward : w'.forward = w.forward
  threshold : w'.threshold = w.threshold
  shelf : w'.journal.shelf = w.journal.shelf

namespace Onto

theorem refl (w : Session) : Onto w w := ⟨.refl _, rfl, rfl, rfl⟩

theorem trans (h : Onto w w') (h' : Onto w' w'') : Onto w w'' :=
  ⟨h.terms.trans h'.terms, h'.forward.trans h.forward, h'.threshold.trans h.threshold,
    h'.shelf.trans h.shelf⟩

theorem note (w : Session) (e : Event) : Onto w (w.note e) := ⟨.refl _, rfl, rfl, shelf_record _ _⟩

end Onto

/-- The session over another universe. What has been reported may differ. -/
def Upon (v : Universe) (w t : Session) : Prop :=
  ∃ journal, journal.shelf = w.journal.shelf ∧ t = { w with terms := v, journal }

theorem upon_self (v : Universe) (w : Session) : Upon v w { w with terms := v } := ⟨_, rfl, rfl⟩

/-- A change that concerns neither the universe nor the settings nor the journal. -/
structure Beside (m : Session → Session) : Prop where
  onto : ∀ w, Onto w (m w) := by exact fun _ => ⟨.refl _, rfl, rfl, rfl⟩
  upon : ∀ w terms journal, m { w with terms, journal } = { m w with terms, journal } := by
    exact fun _ _ _ => rfl

theorem Upon.beside (ht : Upon v w t) {m : Session → Session} (hm : Beside m) :
    Upon v (m w) (m t) := by
  obtain ⟨journal, hshelf, rfl⟩ := ht
  exact ⟨journal, hshelf.trans (hm.onto w).shelf.symm, hm.upon w v journal⟩

theorem Upon.note (h : Upon v w t) (e e' : Event) : Upon v (w.note e) (t.note e') := by
  obtain ⟨journal, hshelf, rfl⟩ := h
  exact ⟨_, (shelf_record _ _).trans (hshelf.trans (shelf_record _ _).symm), rfl⟩

/-- What the first does, the second does as well if the universe has all the terms that the first
one ends with. -/
def Retraces (v : Universe) (act act' : Action Session α) (w t : Session) : Prop :=
  ∀ a w', act w = .ok a w' → Onto w w' ∧
    (Extends w'.terms v → ∃ t', act' t = .ok a t' ∧ Upon v w' t')

section Rules

variable {act act' : Action Session α} {next next' : α → Action Session β}

theorem Retraces.bind (h : Retraces v act act' w t)
    (hnext : ∀ a w' t', act w = .ok a w' → Upon v w' t' → Retraces v (next a) (next' a) w' t') :
    Retraces v (act >>= next) (act' >>= next') w t := by
  intro b w'' hrun
  change EStateM.bind act next w = .ok b w'' at hrun
  rw [EStateM.bind] at hrun
  cases hact : act w with
  | error fault w' =>
      rw [hact] at hrun
      cases hrun
  | ok a w' =>
      rw [hact] at hrun
      obtain ⟨hw', hagain⟩ := h a w' hact
      obtain ⟨hw'', _⟩ := hnext a w' _ hact (upon_self v w') b w'' hrun
      refine ⟨hw'.trans hw'', fun hv => ?_⟩
      obtain ⟨t', hrun', ht'⟩ := hagain (hw''.terms.trans hv)
      obtain ⟨t'', hrun'', ht''⟩ := (hnext a w' t' hact ht' b w'' hrun).2 hv
      refine ⟨t'', ?_, ht''⟩
      change EStateM.bind act' next' t = _
      rw [EStateM.bind, hrun']
      exact hrun''

theorem retraces_pure {a : α} (h : Upon v w t) : Retraces v (pure a) (pure a) w t := by
  intro b w' hrun
  cases hrun
  exact ⟨.refl _, fun _ => ⟨t, rfl, h⟩⟩

theorem retraces_get {next next' : Session → Action Session β}
    (h : Retraces v (next w) (next' t) w t) :
    Retraces v (get >>= next) (get >>= next') w t := h

/-- The state stays as it is during a question. -/
theorem retraces_ofChecked {x y : Checked α} (hxy : Extends w.terms v → Confirms x y)
    (h : ∀ a, Retraces v (next a) (next' a) w t) :
    Retraces v (ofChecked x >>= next) (ofChecked y >>= next') w t := by
  intro b w' hrun
  cases x with
  | error flaw => cases hrun
  | ok a =>
      obtain ⟨hw', hagain⟩ := h a b w' hrun
      refine ⟨hw', fun hv => ?_⟩
      rw [hxy (hw'.terms.trans hv) a rfl]
      exact hagain hv

theorem retraces_ofExcept {x : Except Violation α} (h : ∀ a, Retraces v (next a) (next' a) w t) :
    Retraces v (Action.ofExcept x >>= next) (Action.ofExcept x >>= next') w t := by
  intro b w' hrun
  cases x with
  | error violation => cases hrun
  | ok a => exact h a b w' hrun

theorem retraces_set {m : Session → Session} (hm : Beside m) (ht : Upon v w t) :
    Retraces v (set (m w)) (set (m t)) w t := by
  intro _ _ hrun
  cases hrun
  exact ⟨hm.onto w, fun _ => ⟨m t, rfl, ht.beside hm⟩⟩

theorem retraces_modify {m : Session → Session} (hm : Beside m) (ht : Upon v w t) :
    Retraces v (modify m) (modify m) w t :=
  retraces_set hm ht

theorem retraces_note (ht : Upon v w t) (e e' : Event) :
    Retraces v (modify (note e)) (modify (note e')) w t := by
  intro _ _ hrun
  cases hrun
  exact ⟨.note w e, fun _ => ⟨_, rfl, ht.note e e'⟩⟩

theorem retraces_making {op : Universe → Except Violation (Formula × Universe)}
    (hop : Settles v op) (ht : Upon v w t) :
    Retraces v (Action.ofStep (making op)) (Action.ofStep (making op)) w t := by
  intro f w' hrun
  obtain ⟨journal, hshelf, rfl⟩ := ht
  simp only [Action.ofStep, making] at hrun ⊢
  cases hmade : op w.terms with
  | error violation =>
      rw [hmade] at hrun
      cases hrun
  | ok r =>
      rw [hmade] at hrun
      cases hrun
      obtain ⟨hext, hfound⟩ := hop _ _ _ hmade
      refine ⟨⟨hext, rfl, rfl, rfl⟩, fun hv => ?_⟩
      rw [hfound hv]
      exact ⟨_, rfl, journal, hshelf, rfl⟩

end Rules

/-- An effect that does the same again. The backend must not sweep. -/
def Repeats (v : Universe) (act : Action Session α) : Prop :=
  v.Canonical → ∀ w t, w.threshold = 0 → Upon v w t → Retraces v act act w t

theorem repeats_register (f : Formula) (role : Role) :
    Repeats v ((oracle M).register f role) := by
  intro _ w t _ ht
  obtain ⟨journal, hshelf, rfl⟩ := id ht
  refine retraces_get (retraces_ofChecked
    (fun hext => w.induction.confirms_register hext f role) fun induction => ?_)
  exact retraces_set (m := fun w => { w with induction }) {} ht

theorem repeats_reset (depth : Nat) : Repeats v ((oracle M).reset depth) := by
  intro _ w t _ ht
  by_cases hdepth : depth = 0
  · simp only [oracle, hdepth, if_true]
    exact fun _ _ hrun => by cases hrun
  · simp only [oracle, if_neg hdepth]
    exact retraces_modify {} ht

theorem repeats_checkInductive (f : Formula) : Repeats v (checkInductive M f) := by
  intro hv w t _ ht
  obtain ⟨journal, hshelf, rfl⟩ := id ht
  refine retraces_get (retraces_ofChecked (fun hext => w.induction.confirms_check hext f)
    fun answer => ?_)
  cases answer with
  | none => exact (retraces_note ht _ _).bind fun _ _ _ _ ht' => retraces_pure ht'
  | some path =>
      refine (retraces_making (settles_ofStates hv _) ht).bind fun g w₁ t₁ _ ht₁ => ?_
      exact (retraces_note ht₁ _ _).bind fun _ _ _ _ ht' => retraces_pure ht'

theorem repeats_learnForward (n : Nat) (g : Formula) :
    Repeats v ((oracle M).learnForward n g) := by
  intro hv w t _ ht f w' hrun
  obtain ⟨journal, hshelf, rfl⟩ := ht
  have hlearn : ∀ w : Session, (oracle M).learnForward n g w =
      match FiniteState.learnForward w.forward w.system w.terms n g with
      | .ok (f, terms) => .ok f { w with terms }
      | .error flaw => .error flaw.toFault w := fun w => by
    simp only [oracle, bind, EStateM.bind, Action.run_get]
    cases FiniteState.learnForward w.forward w.system w.terms n g <;> rfl
  rw [hlearn] at hrun ⊢
  cases hmade : FiniteState.learnForward w.forward w.system w.terms n g with
  | error flaw =>
      rw [hmade] at hrun
      cases hrun
  | ok r =>
      rw [hmade] at hrun
      cases hrun
      obtain ⟨hext, hfound⟩ := settles_learnForward hv w.forward w.system n g _ _ _ hmade
      refine ⟨⟨hext, rfl, rfl, rfl⟩, fun hlast => ?_⟩
      have hagain : FiniteState.learnForward w.forward w.system v n g = .ok (r.1, v) := hfound hlast
      simp only [hagain]
      exact ⟨_, rfl, journal, hshelf, rfl⟩

theorem repeats_queryInit (f : Formula) : Repeats v (queryInit f) := by
  intro _ w t _ ht
  obtain ⟨journal, hshelf, rfl⟩ := id ht
  refine retraces_get (retraces_ofChecked (fun hext => confirms_eval hext f) fun states => ?_)
  refine retraces_ofExcept fun common => ?_
  cases common.first <;> exact retraces_pure ht

theorem repeats_validate (f : Formula) : Repeats v ((backend M).terms.validate f) := by
  intro _ w t _ ht
  obtain ⟨journal, hshelf, rfl⟩ := id ht
  exact retraces_get (retraces_ofChecked (fun hext => confirms_eval hext f) fun _ =>
    retraces_pure ht)

theorem repeats_assert (f : Formula) : Repeats v ((solver M).assert f) := by
  intro _ w t _ ht
  obtain ⟨journal, hshelf, rfl⟩ := id ht
  refine retraces_get (retraces_ofChecked (fun hext => w.paths.confirms_assert hext f)
    fun paths => ?_)
  exact retraces_set (m := fun w => { w with paths }) {} ht

theorem repeats_check : Repeats v (solver M).check := by
  intro _ w t _ ht
  obtain ⟨journal, hshelf, rfl⟩ := id ht
  refine retraces_get (retraces_ofChecked (fun hext => w.paths.confirms_check hext) fun r => ?_)
  exact (retraces_set (m := fun w => { w with paths := r.2 }) {} ht).bind fun _ _ _ _ ht₁ =>
    (retraces_note ht₁ _ _).bind fun _ _ _ _ ht₂ => retraces_pure ht₂

theorem repeats_model : Repeats v (solver M).model := by
  intro _ w t _ ht
  obtain ⟨journal, hshelf, rfl⟩ := id ht
  refine retraces_get ?_
  cases w.paths.model with
  | some path => exact retraces_pure ht
  | none => exact nofun

/-- What is left to do when a counter-state was reached. -/
def storePath (u : Universe) (path : List Nat) : Action Session Bool := do
  let (cex, terms) ← Action.ofExcept (Reachability.pathFormulas u path)
  modify fun s => { s with terms, reach := { s.reach with cex } }
  return true

theorem retraces_storePath (hv : v.Canonical) (path : List Nat) (ht : Upon v w t) :
    Retraces v (storePath w.terms path) (storePath v path) w t := by
  obtain ⟨journal, hshelf, rfl⟩ := ht
  intro _ w' hrun
  rw [storePath] at hrun ⊢
  cases hpath : Reachability.pathFormulas w.terms path with
  | error violation =>
      rw [hpath] at hrun
      cases hrun
  | ok r =>
      rw [hpath] at hrun
      cases hrun
      obtain ⟨hext, hfound⟩ := settles_pathFormulas hv path _ _ _ hpath
      refine ⟨⟨hext, rfl, rfl, rfl⟩, fun hlast => ?_⟩
      have hagain : Reachability.pathFormulas v path = .ok (r.1, v) := hfound hlast
      rw [hagain]
      exact ⟨_, rfl, journal, hshelf, rfl⟩

theorem repeats_checkReachable (first last : Nat) (g : Formula) :
    Repeats v (checkReachable first last g) := by
  intro hv w t _ ht
  obtain ⟨journal, hshelf, rfl⟩ := id ht
  refine retraces_get (retraces_ofChecked (fun hext => w.reach.confirms_find hext first last g)
    fun r => ?_)
  obtain ⟨hit, reach⟩ := r
  have hset := retraces_set (m := fun w => { w with reach }) {} ht
  cases hit with
  | none => exact hset.bind fun _ _ _ _ ht₁ => retraces_pure ht₁
  | some hit =>
      refine hset.bind fun _ w₁ t₁ hrun₁ ht₁ => ?_
      cases hrun₁
      refine (retraces_note ht₁ _ _).bind fun _ w₂ t₂ hrun₂ ht₂ => ?_
      cases hrun₂
      exact retraces_storePath hv hit.2 ht₂

theorem repeats_init : Repeats v (backend M).reachability.init := by
  intro _ w t _ ht
  exact retraces_modify (m := fun s => { s with reach := .init s.system }) {} ht

theorem repeats_saveGraph (name : String) (lines : List String) :
    Repeats v ((backend M).reports.saveGraph name lines) := by
  intro _ w t _ ht
  obtain ⟨journal, hshelf, rfl⟩ := ht
  intro _ _ hrun
  simp only [backend, Journal.reports, Journal.save] at hrun ⊢
  rw [hshelf]
  cases hopen : w.journal.shelf with
  | closed reason =>
      rw [hopen] at hrun
      cases hrun
  | «open» =>
      rw [hopen] at hrun
      cases hrun
      refine ⟨⟨.refl _, rfl, rfl, hopen.symm⟩, fun _ => ⟨_, rfl, ?_⟩⟩
      exact ⟨{ journal with graphs := _, shelf := .open }, rfl, rfl⟩

theorem repeats_pop : Repeats v (Action.ofStep (solver M).pop) := by
  intro _ w t _ ht
  obtain ⟨journal, hshelf, rfl⟩ := ht
  intro _ _ hrun
  simp only [Action.ofStep, solver] at hrun ⊢
  cases hpop : w.paths.pop with
  | error violation =>
      rw [hpop] at hrun
      cases hrun
  | ok paths =>
      rw [hpop] at hrun
      cases hrun
      exact ⟨⟨.refl _, rfl, rfl, rfl⟩, fun _ => ⟨_, rfl, journal, hshelf, rfl⟩⟩

end Invariance.FiniteState.Session
