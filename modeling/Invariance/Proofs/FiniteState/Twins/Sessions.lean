import Invariance.FiniteState.Session
import Invariance.Proofs.FiniteState.Twins.Answers
import Invariance.Proofs.Twins.Containers

/-!
Two sessions side by side. They are abreast when their universes match and everything they keep is
the same up to twins. Every question then has the same answer in both, and every operation leaves
them abreast, with nothing forgotten.
-/

namespace Invariance.FiniteState.Session

open Universe

variable {M : Machine} {k : Nat} {w w' w₁ w₁' w₂ w₂' : Session} {f g f' g' : Formula}

/-- The second session never sweeps. -/
structure Abreast (k : Nat) (w w' : Session) : Prop where
  matched : Matched w.terms w'.terms
  system : w.system = w'.system
  forward : w.forward = w'.forward
  induction : w.induction.Alike w.terms w'.terms w'.induction
  paths : w.paths.Alike w.terms w'.terms k w'.paths
  reach : w.reach.Alike w.terms w'.terms w'.reach
  trace : w.trace = w'.trace
  shelf : w.journal.shelf = w'.journal.shelf
  still : w'.threshold = 0

/-- Where two sessions have come to: abreast, and with the terms they had. -/
structure Onward (k : Nat) (w w' w₁ w₁' : Session) : Prop where
  abreast : Abreast k w₁ w₁'
  left : Extends w.terms w₁.terms
  right : Extends w'.terms w₁'.terms

namespace Onward

theorem refl (h : Abreast k w w') : Onward k w w' w w' := ⟨h, .refl _, .refl _⟩

theorem trans (h : Onward k w w' w₁ w₁') (h' : Onward k w₁ w₁' w₂ w₂') :
    Onward k w w' w₂ w₂' :=
  ⟨h'.abreast, h.left.trans h'.left, h.right.trans h'.right⟩

theorem twin (h : Onward k w w' w₁ w₁') (hfg : Twin w.terms w'.terms f g) :
    Twin w₁.terms w₁'.terms f g :=
  hfg.extend h.left h.right

end Onward

theorem shelf_record (j : Journal) (e : Event) : (j.record e).shelf = j.shelf := by
  rw [Journal.record]
  split <;> rfl

namespace Abreast

theorem matching (h : Abreast k w w') : Matching (Twin w.terms w'.terms) := h.matched.matching

/-- Both universes have grown, and other events have been noted. -/
theorem grow (h : Abreast k w w') {u v : Universe} (hm : Matched u v) (hu : Extends w.terms u)
    (hv : Extends w'.terms v) {j j' : Journal} (hj : j.shelf = w.journal.shelf)
    (hj' : j'.shelf = w'.journal.shelf) :
    Onward k w w' { w with terms := u, journal := j } { w' with terms := v, journal := j' } :=
  ⟨⟨hm, h.system, h.forward, h.induction.extend hu hv, h.paths.extend hu hv, h.reach.extend hu hv,
    h.trace, hj.trans (h.shelf.trans hj'.symm), h.still⟩, hu, hv⟩

theorem note (h : Abreast k w w') (e e' : Event) : Onward k w w' (w.note e) (w'.note e') :=
  h.grow h.matched (.refl _) (.refl _) (shelf_record _ _) (shelf_record _ _)

/-- The first universe is swept, and nothing is asserted. -/
theorem relocate (h : Abreast 0 w w') {journal : Journal}
    (hshelf : journal.shelf = w.journal.shelf) :
    Abreast 0
      { w with
        terms := w.terms.sweep.2, journal
        induction := w.induction.relocate w.terms.sweep.1
        paths := w.paths.relocate w.terms.sweep.1
        reach := w.reach.relocate w.terms.sweep.1 } w' := by
  obtain ⟨hmatched, hmoves⟩ := h.matched.sweep
  have hr : w.terms.sweep.1.Moves (Twin w.terms w'.terms) (Twin w.terms.sweep.2 w'.terms) := hmoves
  have hopened : w.paths.opened = [] := List.length_eq_zero_iff.mp h.paths.scopes
  have hopened' : w'.paths.opened = [] := List.forall₂_nil_left_iff.mp (hopened ▸ h.paths.opened)
  have hpaths : w.paths.relocate w.terms.sweep.1 = w.paths := by
    rw [PathSolver.relocate, h.paths.base, hopened, List.filterMap_nil, List.map_nil]
    exact congrArg₂ (fun base opened => { w.paths with base, opened }) h.paths.base.symm
      hopened.symm
  refine ⟨hmatched, h.system, h.forward, ?_, ?_, ?_, h.trace, hshelf.trans h.shelf, h.still⟩
  · exact ⟨h.induction.depth, hr.filterMap h.induction.first, hr.filterMap h.induction.intermediate⟩
  · rw [hpaths]
    refine { h.paths with opened := ?_ }
    rw [hopened, hopened']
    exact .nil
  · exact ⟨h.reach.layers, hr.filterMap h.reach.cex⟩

end Abreast

/-- The second action tracks the first, and both go onward, whatever the fault. -/
def Mirrors {α β : Type} (k : Nat) (V : α → β → Session → Session → Prop)
    (act : Action Session α) (act' : Action Session β) (w w' : Session) : Prop :=
  act.Tracks act' w w' (fun _ => Onward k w w') fun a b w₁ w₁' =>
    Onward k w w' w₁ w₁' ∧ V a b w₁ w₁'

def Same {α : Type} (a b : α) (_ _ : Session) : Prop := a = b

def Twins (f g : Formula) (w w' : Session) : Prop := Twin w.terms w'.terms f g

def Agree (a b : InductionAnswer (List Nat)) (w w' : Session) : Prop :=
  (a = .unsat ∧ b = .unsat) ∨ ∃ f g path, Twin w.terms w'.terms f g ∧
    a = .sat (some f) (some path) ∧ b = .sat (some g) (some path)

theorem tracks_ofChecked {α β : Type} {V : α → β → Prop} {x : Checked α} {y : Checked β}
    {F : Fault → Session → Session → Prop} {Q : α → β → Session → Session → Prop}
    (h : Echoes V x y) (hF : ∀ fault, F fault w w') (hQ : ∀ a b, V a b → Q a b w w') :
    Action.Tracks (ofChecked x) (ofChecked y) w w' F Q := by
  cases x with
  | ok a =>
      obtain ⟨b, rfl, hab⟩ := h.of_ok rfl
      exact Action.tracks_pure (hQ a b hab)
  | error flaw =>
      rw [h.of_error rfl]
      exact Action.tracks_throw (hF _)

theorem mirrors_making (op op' : Universe → Except Violation (Formula × Universe))
    (h : Abreast k w w')
    (hop : Echoes (Yields w.terms w'.terms) (op w.terms) (op' w'.terms)) :
    Mirrors k Twins (Action.ofStep (making op)) (Action.ofStep (making op')) w w' := by
  simp only [Mirrors, Action.Tracks, Action.ofStep, making]
  cases hrun : op w.terms with
  | ok r =>
      obtain ⟨r', hrun', hr⟩ := hop.of_ok hrun
      exact ⟨r'.1, _, by rw [hrun'], h.grow hr.matched hr.left hr.right rfl rfl, hr.twin⟩
  | error v =>
      intro _
      exact ⟨w', by rw [hop.of_error hrun], .refl h⟩

theorem mirrors_register (h : Abreast k w w') (hfg : Twin w.terms w'.terms f g) (role : Role) :
    Mirrors k Same ((oracle M).register f role) ((oracle M).register g role) w w' := by
  obtain ⟨s, hf, hg⟩ := id hfg
  refine Action.Tracks.bind (Action.tracks_get ?_)
  rw [InductionSolver.register_eq hf, InductionSolver.register_eq hg]
  exact Action.tracks_set
    ⟨⟨{ h with induction := h.induction.enter hfg role }, .refl _, .refl _⟩, rfl⟩

theorem mirrors_reset (h : Abreast k w w') (depth : Nat) :
    Mirrors k Same ((oracle M).reset depth) ((oracle M).reset depth) w w' := by
  have hreset : ∀ w : Session, (oracle M).reset depth w =
      if depth = 0 then .error (.error (.solver "induction depth must be positive")) w
      else .ok () { w with induction := { depth } } := fun w => by
    simp only [oracle]
    by_cases hdepth : depth = 0
    · rw [if_pos hdepth, if_pos hdepth]
      rfl
    · rw [if_neg hdepth, if_neg hdepth]
      rfl
  rw [Mirrors, Action.Tracks, hreset, hreset]
  by_cases hdepth : depth = 0
  · rw [if_pos hdepth, if_pos hdepth]
    exact fun _ => ⟨w', rfl, .refl h⟩
  · rw [if_neg hdepth, if_neg hdepth]
    exact ⟨(), _, rfl, ⟨{ h with induction := ⟨rfl, .nil, .nil⟩ }, .refl _, .refl _⟩, rfl⟩

theorem mirrors_checkInductive (h : Abreast k w w') (hfg : Twin w.terms w'.terms f g) :
    Mirrors k Agree (checkInductive M f) (checkInductive M g) w w' := by
  refine Action.Tracks.bind (Action.tracks_get ?_)
  refine Action.Tracks.bind
    (tracks_ofChecked (Echoes.of_eq ?_) (fun _ => .refl h) fun answer _ hanswer => ?_)
  · rw [h.system]
    exact h.induction.check_eq hfg
  · subst hanswer
    cases answer with
    | none =>
        refine Action.Tracks.bind (Action.tracks_modify (Action.tracks_pure ?_))
        exact ⟨h.note _ _, Or.inl ⟨rfl, rfl⟩⟩
    | some path =>
        refine Action.Tracks.bind (Action.Tracks.imp
          (mirrors_making (·.ofStates (path.take 1)) (·.ofStates (path.take 1)) h
            (h.matched.echoes_ofStates _)) fun c d w₁ w₁' hcd => ?_)
        have hnote := hcd.1.abreast.note
        refine Action.Tracks.bind (Action.tracks_modify (Action.tracks_pure ?_))
        exact ⟨hcd.1.trans (hnote _ _), Or.inr ⟨c, d, path, (hnote _ _).twin hcd.2, rfl, rfl⟩⟩

theorem mirrors_learnForward (h : Abreast k w w') (hfg : Twin w.terms w'.terms f g)
    (frame : Nat) :
    Mirrors k Twins ((oracle M).learnForward frame f) ((oracle M).learnForward frame g) w w' := by
  refine Action.Tracks.bind (Action.tracks_get ?_)
  refine Action.Tracks.bind
    (tracks_ofChecked (V := Yields w.terms w'.terms) ?_ (fun _ => .refl h) fun r r' hr => ?_)
  · rw [h.forward, h.system]
    exact echoes_learnForward h.matched hfg
  · obtain ⟨f₁, u₁⟩ := r
    obtain ⟨g₁, v₁⟩ := r'
    refine Action.Tracks.bind (Action.tracks_set (Action.tracks_pure ?_))
    exact ⟨h.grow hr.matched hr.left hr.right rfl rfl, hr.twin⟩

theorem mirrors_queryInit (h : Abreast k w w') (hfg : Twin w.terms w'.terms f g) :
    Mirrors k Same (queryInit f) (queryInit g) w w' := by
  refine Action.Tracks.bind (Action.tracks_get ?_)
  refine Action.Tracks.bind (tracks_ofChecked (Echoes.of_eq hfg.eval_eq) (fun _ => .refl h)
    fun states _ hstates => ?_)
  subst hstates
  rw [h.system]
  refine Action.Tracks.bind (Action.tracks_ofExcept (fun _ => .refl h) (fun common hcommon => ?_)
    fun _ hv _ => hv)
  refine ⟨common, hcommon, ?_⟩
  cases common.first with
  | some x => exact Action.tracks_pure ⟨.refl h, rfl⟩
  | none => exact Action.tracks_pure ⟨.refl h, rfl⟩

theorem mirrors_assert (h : Abreast (k + 1) w w') (hfg : StepTwin w.terms w'.terms f g) :
    Mirrors (k + 1) Same ((solver M).assert f) ((solver M).assert g) w w' := by
  have hassert : ∀ {w : Session} {f : Formula} {s : StateSet} {j : Nat}
      {scope : List Formula} {rest : List (List Formula)}, w.terms.Demands f s j →
      w.paths.opened = scope :: rest → (solver M).assert f w =
        .ok () { w with paths := { w.paths with opened := (scope ++ [f]) :: rest } } := by
    intro w f s j scope rest hf hopened
    have hpaths : w.paths.assert w.terms f =
        .ok { w.paths with opened := (scope ++ [f]) :: rest } := by
      simp only [PathSolver.assert, stepFormula_eq hf, bind, Except.bind, hopened]
      rfl
    simp only [solver, bind, EStateM.bind, Action.run_get, hpaths]
    rfl
  obtain ⟨s, j, hf, hg⟩ := id hfg
  have hopened := h.paths.opened
  have hscopes := h.paths.scopes
  cases hleft : w.paths.opened with
  | nil =>
      rw [hleft] at hscopes
      cases hscopes
  | cons scope rest =>
      rw [hleft] at hopened hscopes
      generalize hright : w'.paths.opened = opened' at hopened
      cases hopened with
      | cons hscope hrest =>
          rw [Mirrors, Action.Tracks, hassert hf hleft]
          refine ⟨(), _, hassert hg hright, ⟨{ h with paths := ?_ }, .refl _, .refl _⟩, rfl⟩
          exact { h.paths with
            opened := .cons (List.rel_append hscope (.cons hfg .nil)) hrest, scopes := hscopes }

theorem mirrors_check (h : Abreast k w w') :
    Mirrors k Same (solver M).check (solver M).check w w' := by
  refine Action.Tracks.bind (Action.tracks_get ?_)
  refine Action.Tracks.bind (tracks_ofChecked
    (V := fun r r' => r.2.model = r'.2.model ∧ r.2 = { w.paths with model := r.2.model } ∧
      r'.2 = { w'.paths with model := r'.2.model }) ?_ (fun _ => .refl h) fun r r' hr => ?_)
  · rw [PathSolver.check, PathSolver.check, PathSolver.constraints_congr h.paths.asserted, h.system]
    refine (Echoes.of_eq rfl).bind fun sets _ hsets => ?_
    subst hsets
    refine (Echoes.of_eq rfl).bind fun model _ hmodel => ?_
    subst hmodel
    exact ⟨rfl, rfl, rfl⟩
  · obtain ⟨steps, paths⟩ := r
    obtain ⟨steps', paths'⟩ := r'
    obtain ⟨hmodel, hpaths, hpaths'⟩ := hr
    have h₁ : Abreast k { w with paths } { w' with paths := paths' } := by
      refine { h with paths := ?_ }
      simp only at hmodel hpaths hpaths'
      rw [hpaths, hpaths']
      exact { h.paths with model := hmodel }
    refine Action.Tracks.bind (Action.tracks_set (Action.Tracks.bind (Action.tracks_modify
      (Action.tracks_pure ⟨⟨(h₁.note _ _).abreast, .refl _, .refl _⟩, ?_⟩))))
    simp only at hmodel
    simp only [Same, hmodel]

theorem mirrors_model (h : Abreast k w w') :
    Mirrors k Same (solver M).model (solver M).model w w' := by
  have hsome : ∀ {w : Session} {path : List Nat}, w.paths.model = some path →
      (solver M).model w = .ok path w := fun hmodel => by
    simp only [solver, bind, EStateM.bind, Action.run_get, hmodel]
    rfl
  have hnone : ∀ {w : Session}, w.paths.model = none →
      (solver M).model w = .error (.error (.missingWitness "a path model")) w := fun hmodel => by
    simp only [solver, bind, EStateM.bind, Action.run_get, hmodel]
    rfl
  rw [Mirrors, Action.Tracks]
  cases hmodel : w.paths.model with
  | some path =>
      rw [hsome hmodel]
      exact ⟨path, w', hsome (h.paths.model.symm.trans hmodel), .refl h, rfl⟩
  | none =>
      rw [hnone hmodel]
      exact fun _ => ⟨w', hnone (h.paths.model.symm.trans hmodel), .refl h⟩

theorem mirrors_checkReachable (h : Abreast k w w') (hfg : Twin w.terms w'.terms f g)
    (first last : Nat) :
    Mirrors k Same (checkReachable first last f) (checkReachable first last g) w w' := by
  refine Action.Tracks.bind (Action.tracks_get ?_)
  refine Action.Tracks.bind (tracks_ofChecked
    (V := fun r r' => r.1 = r'.1 ∧ r.2.Alike w.terms w'.terms r'.2) ?_ (fun _ => .refl h)
    fun r r' hr => ?_)
  · rw [h.system]
    exact h.reach.echoes_find hfg
  · obtain ⟨hit, reach⟩ := r
    obtain ⟨hit', reach'⟩ := r'
    obtain ⟨rfl, hreach⟩ := hr
    have h₁ : Abreast k { w with reach } { w' with reach := reach' } := { h with reach := hreach }
    refine Action.Tracks.bind (Action.tracks_set ?_)
    cases hit with
    | none => exact Action.tracks_pure ⟨⟨h₁, .refl _, .refl _⟩, rfl⟩
    | some hit =>
        obtain ⟨step, path⟩ := hit
        refine Action.Tracks.bind (Action.tracks_modify ?_)
        have hpath := Reachability.echoes_pathFormulas path h.matched
        refine Action.Tracks.bind (Action.tracks_ofExcept
          (fun _ => ⟨(h₁.note _ _).abreast, .refl _, .refl _⟩) (fun r hr => ?_)
          fun v hv _ => hpath.of_error hv)
        obtain ⟨r', hr', hmatched, hleft, hright, htwins⟩ := hpath.of_ok hr
        have h₂ := fun e e' =>
          h₁.grow hmatched hleft hright (shelf_record _ e) (shelf_record _ e')
        obtain ⟨cex, u⟩ := r
        obtain ⟨cex', v⟩ := r'
        refine ⟨_, hr', Action.Tracks.bind (Action.tracks_modify (Action.tracks_pure ?_))⟩
        exact ⟨⟨{ (h₂ _ _).abreast with reach := ⟨hreach.layers, htwins⟩ }, hleft, hright⟩, rfl⟩

theorem sweep_of_still (h : w.threshold = 0) : (backend M).oracle.sweep w = .ok none w := by
  simp only [backend, oracle, bind, EStateM.bind, Action.run_get, h]
  rfl

theorem mirrors_saveGraph (h : Abreast k w w') {name : String} {lines lines' : List String} :
    Mirrors k Same ((backend M).reports.saveGraph name lines)
      ((backend M).reports.saveGraph name lines') w w' := by
  simp only [Mirrors, Action.Tracks, backend, Journal.reports, Journal.save, ← h.shelf]
  cases hshelf : w.journal.shelf with
  | closed reason => exact fun _ => ⟨w', rfl, .refl h⟩
  | «open» =>
      exact ⟨(), _, rfl, h.grow h.matched (.refl _) (.refl _) hshelf.symm
        (h.shelf.symm.trans hshelf).symm, rfl⟩

end Invariance.FiniteState.Session
