import Invariance.FiniteState.Universe

/-!
Bounded reachability. Layer `i` holds the states that are reached from an initial state in exactly
`i` steps; layers are computed on demand and kept for the whole query.
-/

namespace Invariance.FiniteState

structure Reachability where
  layers : Array StateSet := #[]
  cex : List Formula := []
  deriving Inhabited

namespace Reachability

def init (sys : TransitionSystem) : Reachability := { layers := #[sys.init] }

def grow (sys : TransitionSystem) (layers : Array StateSet) (last : StateSet) :
    (count : Nat) → Except Violation (Array StateSet)
  | 0 => .ok layers
  | count + 1 => do
      let next ← sys.post last
      grow sys (layers.push next) next count

def layersTo (r : Reachability) (sys : TransitionSystem) (last : Nat) :
    Except Violation (Array StateSet) :=
  match r.layers.back? with
  | none => grow sys #[sys.init] sys.init last
  | some layer => grow sys r.layers layer (last + 1 - r.layers.size)

def firstHit (layers : Array StateSet) (target : StateSet) (step : Nat) :
    (count : Nat) → Except Violation (Option (Nat × Nat))
  | 0 => .ok none
  | count + 1 =>
      match layers[step]? with
      | none => .error (.indexOutOfRange layers.size step)
      | some layer => do
          match (← layer.inter target).first with
          | some x => return some (step, x)
          | none => firstHit layers target (step + 1) count

def find (r : Reachability) (sys : TransitionSystem) (u : Universe)
    (first last : Nat) (g : Formula) : Checked (Option (Nat × List Nat) × Reachability) := do
  let target ← u.eval g
  let layers ← Checked.ofExcept (r.layersTo sys last)
  let r := { r with layers }
  match ← Checked.ofExcept (firstHit layers target first (last + 1 - first)) with
  | none => return (none, r)
  | some (step, x) =>
      let path ← Checked.ofExcept (sys.witness (layers.toList.take (step + 1)) x)
      return (some (step, path), r)

def pathFormulas (u : Universe) : List Nat → Except Violation (List Formula × Universe)
  | [] => .ok ([], u)
  | x :: rest => do
      let (f, u) ← u.ofStates [x]
      let (fs, u) ← pathFormulas u rest
      return (f :: fs, u)

def relocate (r : Reachability) (reloc : Relocation) : Reachability :=
  { r with cex := r.cex.filterMap reloc.apply }

end Reachability

end Invariance.FiniteState
