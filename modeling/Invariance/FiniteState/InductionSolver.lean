import Invariance.FiniteState.PathSolver
import Invariance.Frame

/-!
Induction over several steps. A check of a formula at depth `d` looks for a path of `d` steps that
begins in every formula of the role `first`, stays in every intermediate formula and ends outside
the formula.
-/

namespace Invariance.FiniteState

/-- How a counter-state is refuted forward: by its complement, or by the states reached up to the
active frame if they exclude it. -/
inductive ForwardLearning where
  | negation | reachable
  deriving DecidableEq, Inhabited

structure InductionSolver where
  depth : Nat := 1
  first : List Formula := []
  intermediate : List Formula := []
  deriving Inhabited

namespace InductionSolver

def register (solver : InductionSolver) (u : Universe) (f : Formula) (role : Role) :
    Checked InductionSolver := do
  let _ ← u.eval f
  match role with
  | .first => return { solver with first := solver.first ++ [f] }
  | .intermediate => return { solver with intermediate := solver.intermediate ++ [f] }

def conjunction (n : Nat) (u : Universe) (fs : List Formula) : Checked StateSet :=
  fs.foldlM (fun acc f => do Checked.ofExcept (acc.inter (← u.eval f))) (.full n)

def check (M : Machine) (solver : InductionSolver) (sys : TransitionSystem) (u : Universe)
    (f : Formula) : Checked (Option (List Nat)) := do
  let count ← Checked.ofExcept (M.add solver.depth 1)
  Checked.ofExcept (M.allot count)
  let first ← conjunction sys.size u solver.first
  let intermediate ← conjunction sys.size u solver.intermediate
  let target ← u.eval f
  let between := List.replicate (solver.depth - 1) intermediate
  Checked.ofExcept
    (PathSolver.findPath sys (.full sys.size) (first :: between ++ [target.complement]))

def relocate (solver : InductionSolver) (r : Relocation) : InductionSolver :=
  { solver with
    first := solver.first.filterMap r.apply
    intermediate := solver.intermediate.filterMap r.apply }

end InductionSolver

def reachFrom (sys : TransitionSystem) (layer reached : StateSet) :
    (steps : Nat) → Except Violation StateSet
  | 0 => .ok reached
  | steps + 1 => do
      let next ← sys.post layer
      reachFrom sys next (← reached.union next) steps

def reachableWithin (sys : TransitionSystem) (steps : Nat) : Except Violation StateSet :=
  reachFrom sys sys.init sys.init steps

def learnForward (mode : ForwardLearning) (sys : TransitionSystem) (u : Universe) (frame : Nat)
    (g : Formula) : Checked (Formula × Universe) := do
  let counter ← u.eval g
  match mode with
  | .negation => Checked.ofExcept (u.negate g)
  | .reachable =>
      let reached ← Checked.ofExcept (reachableWithin sys frame)
      let common ← Checked.ofExcept (reached.inter counter)
      if common.isEmpty then Checked.ofExcept (u.ofSet reached)
      else Checked.ofExcept (u.negate g)

end Invariance.FiniteState
