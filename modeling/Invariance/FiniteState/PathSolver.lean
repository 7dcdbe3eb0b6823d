import Invariance.FiniteState.Universe

/-!
A solver for paths. It holds step terms in nested scopes and looks for a path from an initial
state that satisfies all of them; the path is the model.
-/

namespace Invariance.FiniteState

structure PathSolver where
  base : List Formula := []
  opened : List (List Formula) := []
  depth : Nat := 0
  model : Option (List Nat) := none
  deriving Inhabited

namespace PathSolver

def ensureDepth (solver : PathSolver) (depth : Nat) : PathSolver :=
  { solver with depth := max solver.depth depth }

def push (solver : PathSolver) : PathSolver := { solver with opened := [] :: solver.opened }

def pop (solver : PathSolver) : Except Violation PathSolver :=
  match solver.opened with
  | [] => .error .baseScope
  | _ :: opened => .ok { solver with opened, model := none }

def asserted (solver : PathSolver) : List Formula := solver.base ++ solver.opened.reverse.flatten

def assert (solver : PathSolver) (u : Universe) (f : Formula) : Checked PathSolver := do
  let _ ← u.stepFormula f
  match solver.opened with
  | [] => return { solver with base := solver.base ++ [f] }
  | scope :: rest => return { solver with opened := (scope ++ [f]) :: rest }

def lengthen (M : Machine) (n : Nat) (constraints : Array StateSet) (step : Nat) :
    Except Violation (Array StateSet) :=
  if step < constraints.size then .ok constraints
  else do
    let count ← M.add step 1
    M.allot count
    return constraints ++ Array.replicate (count - constraints.size) (.full n)

def tighten (M : Machine) (n : Nat) (constraints : Array StateSet) (s : StateSet) (step : Nat) :
    Except Violation (Array StateSet) := do
  let constraints ← lengthen M n constraints step
  match constraints[step]? with
  | none => .error (.indexOutOfRange constraints.size step)
  | some old => return constraints.setIfInBounds step (← old.inter s)

def constraints (M : Machine) (u : Universe) (n : Nat) (fs : List Formula) :
    Checked (Array StateSet) := do
  let sets ← fs.foldlM (fun acc f => do
    let (s, step) ← u.stepFormula f
    Checked.ofExcept (tighten M n acc s step)) #[]
  return if sets.isEmpty then #[.full n] else sets

def findPath (sys : TransitionSystem) (start : StateSet) (constraints : List StateSet) :
    Except Violation (Option (List Nat)) := do
  match ← sys.constrainedLayers start constraints with
  | none => return none
  | some layers =>
      match layers.getLast?.bind StateSet.first with
      | none => return none
      | some last => return some (← sys.witness layers last)

def check (M : Machine) (solver : PathSolver) (sys : TransitionSystem) (u : Universe) :
    Checked (Nat × PathSolver) := do
  let sets ← constraints M u sys.size solver.asserted
  let model ← Checked.ofExcept (findPath sys sys.init sets.toList)
  return (sets.size, { solver with model })

def relocate (solver : PathSolver) (r : Relocation) : PathSolver :=
  { solver with
    base := solver.base.filterMap r.apply
    opened := solver.opened.map (·.filterMap r.apply) }

end PathSolver

end Invariance.FiniteState
