import Invariance.FiniteState.Session
import Invariance.Proofs.FiniteState.Ledger
import Invariance.Proofs.Courses

/-!
What does not touch the induction solver. Most operations of the backend add terms and events at
most, or concern another solver: whatever the arguments are and whether the operation succeeds or
not, no formula is registered and none loses its meaning.
-/

namespace Invariance.FiniteState

namespace Universe

variable {u u' : Universe} {f g d : Formula} {s : StateSet}

theorem intern_grows (u : Universe) (t : Term) :
    Extends u (u.intern t).2 ∧ (u.intern t).2.terms[(u.intern t).1.id]? = some t := by
  rcases u.intern_cases t with ⟨f, heq, hf⟩ | ⟨_, heq⟩
  · rw [heq]
    exact ⟨.refl u, hf⟩
  · rw [heq]
    refine ⟨⟨rfl, fun {i t'} hi => ?_⟩, Array.getElem?_push_size⟩
    have hlt : i < u.terms.size := (Array.getElem?_eq_some_iff.mp hi).1
    rw [Array.getElem?_push, if_neg (Nat.ne_of_lt hlt), hi]

theorem ofSet_grows (h : u.ofSet s = .ok (f, u')) : Extends u u' ∧ u'.Names f s := by
  rw [ofSet] at h
  split at h
  · have hgrows := u.intern_grows (.states s)
    rwa [Except.ok.inj h] at hgrows
  · cases h

theorem ofStates_grows {states : List Nat} (h : u.ofStates states = .ok (f, u')) :
    Extends u u' := by
  rw [ofStates] at h
  cases hs : StateSet.ofStates u.size states with
  | error v =>
      rw [hs] at h
      cases h
  | ok s =>
      rw [hs] at h
      exact (ofSet_grows h).1

theorem negate_grows (h : u.negate f = .ok (g, u')) :
    Extends u u' ∧ ∀ s, u.Names f s → u'.Names g s.complement := by
  rw [negate] at h
  split at h
  next t ht =>
    obtain ⟨hext, hnames⟩ := ofSet_grows h
    refine ⟨hext, fun s hs => ?_⟩
    obtain rfl := Except.ok.inj ((eval_eq hs).symm.trans ht)
    exact hnames
  next => cases h
  next => cases h

theorem disjoin_grows (h : u.disjoin f g = .ok (d, u')) : Extends u u' ∧ ∀ s, u.Names f s →
    ∃ r, u'.Names d r ∧ ∀ x, s.contains x = true → r.contains x = true := by
  rw [disjoin] at h
  split at h
  next a b ha hb =>
    cases hr : a.union b with
    | error v =>
        rw [hr] at h
        cases h
    | ok r =>
        rw [hr] at h
        obtain ⟨hext, hnames⟩ := ofSet_grows h
        refine ⟨hext, fun s hs => ⟨r, hnames, fun x hx => ?_⟩⟩
        obtain rfl := Except.ok.inj ((eval_eq hs).symm.trans ha)
        rw [StateSet.contains_union hr, hx, Bool.true_or]
  all_goals cases h

theorem reachFrom_contains {sys : TransitionSystem} {x : Nat} :
    ∀ {steps : Nat} {layer reached r : StateSet}, reachFrom sys layer reached steps = .ok r →
    reached.contains x = true → r.contains x = true
  | 0, _, _, _, h, hx => by
      obtain rfl := Except.ok.inj h
      exact hx
  | steps + 1, layer, reached, r, h, hx => by
      simp only [reachFrom, bind, Except.bind] at h
      split at h
      · cases h
      split at h
      · cases h
      next hunion =>
        refine reachFrom_contains h ?_
        rw [StateSet.contains_union hunion, hx, Bool.true_or]

theorem learnForward_grows {mode : ForwardLearning} {sys : TransitionSystem} {n : Nat}
    (h : learnForward mode sys u n g = .ok (f, u')) : Extends u u' ∧ ∀ s, u.Names g s →
    u'.Names f s.complement ∨ u'.Ample sys f := by
  have hstep : ∀ {x : Except Violation (Formula × Universe)},
      Checked.ofExcept x = .ok (f, u') → x = .ok (f, u') := fun {x} hx => by
    cases x with
    | ok r => exact congrArg Except.ok (Except.ok.inj hx)
    | error v => cases hx
  have hnegate : u.negate g = .ok (f, u') → Extends u u' ∧ ∀ s, u.Names g s →
      u'.Names f s.complement ∨ u'.Ample sys f := fun h =>
    ⟨(negate_grows h).1, fun s hs => Or.inl ((negate_grows h).2 s hs)⟩
  cases heval : u.eval g with
  | error flaw =>
      simp only [learnForward, heval, bind, Except.bind] at h
      cases h
  | ok counter =>
      simp only [learnForward, heval, bind, Except.bind] at h
      cases mode with
      | negation => exact hnegate (hstep h)
      | reachable =>
          simp only at h
          cases hreached : reachableWithin sys n with
          | error v =>
              rw [hreached] at h
              cases h
          | ok reached =>
              rw [hreached] at h
              simp only [Checked.ofExcept, Except.mapError] at h
              split at h
              · cases h
              split at h
              · obtain ⟨hext, hname⟩ := ofSet_grows (hstep h)
                exact ⟨hext, fun _ _ => Or.inr ⟨_, hname, fun x hx =>
                  reachFrom_contains hreached hx⟩⟩
              · exact hnegate (hstep h)

theorem pathFormulas_grows : ∀ {path : List Nat} {u u' : Universe} {fs : List Formula},
    Reachability.pathFormulas u path = .ok (fs, u') → Extends u u'
  | [], _, _, _, h => by
      obtain ⟨rfl, rfl⟩ := Prod.mk.inj (Except.ok.inj h)
      exact .refl _
  | x :: path, u, u', fs, h => by
      simp only [Reachability.pathFormulas, bind, Except.bind] at h
      split at h
      · cases h
      next r hr =>
        split at h
        · cases h
        next r' hr' =>
          obtain ⟨rfl, rfl⟩ := Prod.mk.inj (Except.ok.inj h)
          exact (ofStates_grows hr).trans (pathFormulas_grows hr')

end Universe

/-! The backend. -/

open Universe Session

variable {M : Machine} {w w' w'' : Session}

/-- The induction solver and the system are as they were, and what had a name has it still. -/
structure Idle (w w' : Session) : Prop where
  induction : w'.induction = w.induction
  system : w'.system = w.system
  terms : Extends w.terms w'.terms

namespace Idle

theorem refl (w : Session) : Idle w w := ⟨rfl, rfl, .refl _⟩

theorem trans (h : Idle w w') (h' : Idle w' w'') : Idle w w'' :=
  ⟨h'.induction.trans h.induction, h'.system.trans h.system, h.terms.trans h'.terms⟩

end Idle

def Idles {α : Type} (act : Action Session α) : Prop := ∀ w, Idle w (act.final w)

theorem Idles.bind {α β : Type} {act : Action Session α} {next : α → Action Session β}
    (h : Idles act) (hnext : ∀ a, Idles (next a)) : Idles (act >>= next) := fun w => by
  have hact := h w
  rw [Action.final] at hact
  rw [Action.final_bind]
  cases hrun : act w with
  | ok a w' =>
      rw [hrun] at hact
      exact hact.trans (hnext a w')
  | error fault w' =>
      rw [hrun] at hact
      exact hact

theorem idles_of_same {α : Type} {act : Action Session α} (h : ∀ w, act.final w = w) :
    Idles act := fun w => (h w).symm ▸ .refl w

theorem idles_ofChecked {α : Type} (x : Checked α) : Idles (ofChecked x) :=
  idles_of_same fun _ => by cases x <;> rfl

theorem idles_note (e : Event) : Idles (modify (note e)) := fun _ => ⟨rfl, rfl, .refl _⟩

theorem idles_making {op : Universe → Except Violation (Formula × Universe)}
    (h : ∀ {u f u'}, op u = .ok (f, u') → Extends u u') : Idles (Action.ofStep (making op)) := by
  intro w
  simp only [Action.final, Action.ofStep, making]
  cases hop : op w.terms with
  | ok r => exact ⟨rfl, rfl, h hop⟩
  | error v => exact .refl w

theorem idles_checkInductive (f : Formula) : Idles (checkInductive M f) :=
  .bind (idles_of_same fun _ => rfl) fun _ => .bind (idles_ofChecked _) fun answer =>
    match answer with
    | none => .bind (idles_note _) fun _ => idles_of_same fun _ => rfl
    | some _ => .bind (idles_making ofStates_grows) fun _ => .bind (idles_note _) fun _ =>
        idles_of_same fun _ => rfl

theorem Idle.get {α : Type} {next : Session → Action Session α}
    (h : Idle w ((next w).final w)) : Idle w ((get >>= next : Action Session α).final w) := by
  rw [Action.final_bind]
  exact h

theorem idles_learnForward (n : Nat) (g : Formula) : Idles ((oracle M).learnForward n g) := by
  intro w
  refine Idle.get ?_
  rw [Action.final_bind]
  cases hlearn : learnForward w.forward w.system w.terms n g with
  | error flaw => exact .refl w
  | ok r => exact ⟨rfl, rfl, (learnForward_grows hlearn).1⟩

theorem idles_checkReachable (first last : Nat) (g : Formula) :
    Idles (checkReachable first last g) := by
  intro w
  rw [checkReachable]
  refine Idle.get ?_
  rw [Action.final_bind]
  cases w.reach.find w.system w.terms first last g with
  | error flaw => exact .refl w
  | ok r =>
      obtain ⟨hit, reach⟩ := r
      cases hit with
      | none => exact ⟨rfl, rfl, .refl _⟩
      | some hit =>
          change Idle w (Action.final (_ >>= fun _ => _ >>= fun _ => _ >>= _) w)
          rw [Action.final_bind]
          change Idle w (Action.final (_ >>= fun _ => _ >>= _) _)
          rw [Action.final_bind]
          change Idle w
            (Action.final (Action.ofExcept (Reachability.pathFormulas w.terms hit.2) >>= _) _)
          rw [Action.final_bind]
          cases hpath : Reachability.pathFormulas w.terms hit.2 with
          | error v => exact ⟨rfl, rfl, .refl _⟩
          | ok r => exact ⟨rfl, rfl, pathFormulas_grows hpath⟩

theorem idles_assert (f : Formula) : Idles ((solver M).assert f) := by
  intro w
  refine Idle.get ?_
  rw [Action.final_bind]
  cases w.paths.assert w.terms f <;> exact ⟨rfl, rfl, .refl _⟩

theorem idles_check : Idles (solver M).check := by
  intro w
  refine Idle.get ?_
  rw [Action.final_bind]
  cases w.paths.check M w.system w.terms <;> exact ⟨rfl, rfl, .refl _⟩

theorem idles_model : Idles (solver M).model := by
  intro w
  simp only [Action.final, solver, bind, EStateM.bind, Action.run_get]
  cases w.paths.model <;> exact ⟨rfl, rfl, .refl _⟩

theorem idles_pop : Idles (Action.ofStep (solver M).pop) := by
  intro w
  simp only [Action.final, Action.ofStep, solver]
  cases w.paths.pop <;> exact ⟨rfl, rfl, .refl _⟩

theorem idles_saveGraph (name : String) (lines : List String) :
    Idles ((backend M).reports.saveGraph name lines) := by
  intro w
  simp only [Action.final, backend, Journal.reports]
  cases w.journal.save name lines <;> exact ⟨rfl, rfl, .refl _⟩

end Invariance.FiniteState
