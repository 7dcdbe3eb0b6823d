import Invariance.FiniteState.Reachability
import Invariance.Proofs.FiniteState.Twins.Universes
import Invariance.Proofs.Twins.Running

/-!
One question to two universes that match. Twins have one value, so a question about twins has the
same answer, and an operation on twins yields twins, or else the same error.
-/

namespace Invariance.FiniteState

open Universe

variable {M : Machine} {sys : TransitionSystem} {n : Nat} {u v u' v' : Universe}
  {f g f' g' : Formula} {fs gs : List Formula} {s : StateSet}

theorem Checked.echoes_ofExcept {α β : Type} {V : α → β → Prop} {x : Except Violation α}
    {y : Except Violation β} (h : Echoes V x y) :
    Echoes V (Checked.ofExcept x) (Checked.ofExcept y) :=
  h.mapError _

namespace Universe

theorem Twin.eval_eq (h : Twin u v f g) : u.eval f = v.eval g := by
  obtain ⟨s, hf, hg⟩ := h
  rw [Universe.eval_eq hf, Universe.eval_eq hg]

theorem StepTwin.stepFormula_eq (h : StepTwin u v f g) : u.stepFormula f = v.stepFormula g := by
  obtain ⟨s, k, hf, hg⟩ := h
  rw [Universe.stepFormula_eq hf, Universe.stepFormula_eq hg]

/-- What an operation yields on both sides: universes that match as well, and twins in them. -/
structure Yields (u v : Universe) (r r' : Formula × Universe) : Prop where
  matched : Matched r.2 r'.2
  left : Extends u r.2
  right : Extends v r'.2
  twin : Twin r.2 r'.2 r.1 r'.1

namespace Matched

theorem echoes_ofSet (h : Matched u v) (s : StateSet) :
    Echoes (Yields u v) (u.ofSet s) (v.ofSet s) := by
  by_cases hs : s.size = u.size
  · obtain ⟨f, u', hset, _⟩ := ofSet_eq h.left hs
    obtain ⟨r', hset', hmatched, hleft, hright, htwin⟩ := h.ofSet hset
    rw [hset, hset']
    exact ⟨hmatched, hleft, hright, htwin⟩
  · rw [Universe.ofSet, Universe.ofSet, ← h.size, if_neg hs, if_neg hs]
    exact rfl

theorem echoes_negate (h : Matched u v) (hfg : Twin u v f g) :
    Echoes (Yields u v) (u.negate f) (v.negate g) := by
  obtain ⟨s, hf, hg⟩ := hfg
  rw [negate, negate, Universe.eval_eq hf, Universe.eval_eq hg]
  exact h.echoes_ofSet s.complement

theorem echoes_disjoin (h : Matched u v) (hf : Twin u v f f') (hg : Twin u v g g') :
    Echoes (Yields u v) (u.disjoin f g) (v.disjoin f' g') := by
  obtain ⟨s, hs, hs'⟩ := hf
  obtain ⟨t, ht, ht'⟩ := hg
  rw [disjoin, disjoin, Universe.eval_eq hs, Universe.eval_eq hs', Universe.eval_eq ht,
    Universe.eval_eq ht']
  refine (Echoes.of_eq rfl).bind fun r r' hr => ?_
  rw [← hr]
  exact h.echoes_ofSet r

theorem echoes_ofStates (h : Matched u v) (states : List Nat) :
    Echoes (Yields u v) (u.ofStates states) (v.ofStates states) := by
  rw [ofStates, ofStates, ← h.size]
  refine (Echoes.of_eq rfl).bind fun s s' hs => ?_
  rw [← hs]
  exact h.echoes_ofSet s

end Matched

end Universe

theorem echoes_learnForward {mode : ForwardLearning} {frame : Nat} (h : Matched u v)
    (hfg : Twin u v f g) :
    Echoes (Yields u v) (learnForward mode sys u frame f) (learnForward mode sys v frame g) := by
  have hnegate := Checked.echoes_ofExcept (h.echoes_negate hfg)
  rw [learnForward, learnForward]
  refine (Echoes.of_eq hfg.eval_eq).bind fun counter _ hcounter => ?_
  rw [← hcounter]
  cases mode with
  | negation => exact hnegate
  | reachable =>
      refine (Echoes.of_eq rfl).bind fun reached _ hreached => ?_
      rw [← hreached]
      refine (Echoes.of_eq rfl).bind fun common _ hcommon => ?_
      rw [← hcommon]
      cases common.isEmpty with
      | true => exact Checked.echoes_ofExcept (h.echoes_ofSet reached)
      | false => exact hnegate

namespace InductionSolver

structure Alike (u v : Universe) (solver solver' : InductionSolver) : Prop where
  depth : solver.depth = solver'.depth
  first : List.Forall₂ (Twin u v) solver.first solver'.first
  intermediate : List.Forall₂ (Twin u v) solver.intermediate solver'.intermediate

theorem conjunction_congr (h : List.Forall₂ (Twin u v) fs gs) :
    conjunction n u fs = conjunction n v gs :=
  meet_congr (h.imp fun _ _ hfg => hfg.eval_eq) _

namespace Alike

variable {solver solver' : InductionSolver}

theorem extend (h : solver.Alike u v solver') (hu : Extends u u') (hv : Extends v v') :
    solver.Alike u' v' solver' :=
  ⟨h.depth, h.first.imp fun _ _ hf => hf.extend hu hv,
    h.intermediate.imp fun _ _ hf => hf.extend hu hv⟩

theorem check_eq (h : solver.Alike u v solver') (hfg : Twin u v f g) :
    solver.check M sys u f = solver'.check M sys v g := by
  rw [check, check, h.depth, conjunction_congr h.first, conjunction_congr h.intermediate,
    hfg.eval_eq]

theorem enter (h : solver.Alike u v solver') (hfg : Twin u v f g) (role : Role) :
    (solver.enter f role).Alike u v (solver'.enter g role) := by
  have hsnoc : ∀ {l l' : List Formula}, List.Forall₂ (Twin u v) l l' →
      List.Forall₂ (Twin u v) (l ++ [f]) (l' ++ [g]) := fun hl =>
    List.rel_append hl (.cons hfg .nil)
  cases role with
  | first => exact ⟨h.depth, hsnoc h.first, h.intermediate⟩
  | intermediate => exact ⟨h.depth, h.first, hsnoc h.intermediate⟩

end Alike

end InductionSolver

namespace PathSolver

/-- Path solvers with as many open scopes, and with nothing asserted outside of them. -/
structure Alike (u v : Universe) (scopes : Nat) (solver solver' : PathSolver) : Prop where
  base : solver.base = []
  base' : solver'.base = []
  opened : List.Forall₂ (List.Forall₂ (StepTwin u v)) solver.opened solver'.opened
  scopes : solver.opened.length = scopes
  depth : solver.depth = solver'.depth
  model : solver.model = solver'.model

theorem constraints_congr (h : List.Forall₂ (StepTwin u v) fs gs) :
    constraints M u n fs = constraints M v n gs := by
  rw [constraints, constraints]
  congr 1
  generalize (#[] : Array StateSet) = acc
  induction h generalizing acc with
  | nil => rfl
  | cons hfg _ ih =>
      rw [List.foldlM_cons, List.foldlM_cons, hfg.stepFormula_eq]
      exact bind_congr ih

namespace Alike

variable {k : Nat} {solver solver' : PathSolver}

theorem extend (h : solver.Alike u v k solver') (hu : Extends u u') (hv : Extends v v') :
    solver.Alike u' v' k solver' :=
  { h with opened := h.opened.imp fun _ _ hscope => hscope.imp fun _ _ hf => hf.extend hu hv }

theorem asserted (h : solver.Alike u v k solver') :
    List.Forall₂ (StepTwin u v) solver.asserted solver'.asserted := by
  rw [PathSolver.asserted, PathSolver.asserted, h.base, h.base']
  exact List.rel_flatten (List.rel_reverse h.opened)

end Alike

end PathSolver

namespace Reachability

structure Alike (u v : Universe) (reach reach' : Reachability) : Prop where
  layers : reach.layers = reach'.layers
  cex : List.Forall₂ (Twin u v) reach.cex reach'.cex

theorem Alike.extend {reach reach' : Reachability} (h : reach.Alike u v reach')
    (hu : Extends u u') (hv : Extends v v') : reach.Alike u' v' reach' :=
  ⟨h.layers, h.cex.imp fun _ _ hf => hf.extend hu hv⟩

theorem Alike.echoes_find {reach reach' : Reachability} (h : reach.Alike u v reach')
    (hfg : Twin u v f g) {first last : Nat} :
    Echoes (fun r r' => r.1 = r'.1 ∧ r.2.Alike u v r'.2) (reach.find sys u first last f)
      (reach'.find sys v first last g) := by
  rw [find, find]
  refine (Echoes.of_eq hfg.eval_eq).bind fun target _ htarget => ?_
  rw [← htarget, layersTo, layersTo, ← h.layers]
  refine (Echoes.of_eq rfl).bind fun layers _ hlayers => ?_
  rw [← hlayers]
  refine (Echoes.of_eq rfl).bind fun hit _ hhit => ?_
  rw [← hhit]
  cases hit with
  | none => exact ⟨rfl, rfl, h.cex⟩
  | some hit =>
      refine (Echoes.of_eq rfl).bind fun path _ hpath => ?_
      rw [← hpath]
      exact ⟨rfl, rfl, h.cex⟩

theorem echoes_pathFormulas : ∀ {u v : Universe} (path : List Nat), Matched u v →
    Echoes (fun r r' => Matched r.2 r'.2 ∧ Extends u r.2 ∧ Extends v r'.2 ∧
      List.Forall₂ (Twin r.2 r'.2) r.1 r'.1) (pathFormulas u path) (pathFormulas v path)
  | u, v, [], h => ⟨h, .refl u, .refl v, .nil⟩
  | u, v, x :: path, h => by
      rw [pathFormulas, pathFormulas]
      refine (h.echoes_ofStates [x]).bind fun r r' hr => ?_
      refine (echoes_pathFormulas path hr.matched).bind fun rs rs' hrs => ?_
      obtain ⟨hmatched, hleft, hright, htwins⟩ := hrs
      exact ⟨hmatched, hr.left.trans hleft, hr.right.trans hright,
        .cons (hr.twin.extend hleft hright) htwins⟩

end Reachability

end Invariance.FiniteState
