import Invariance.FiniteState.Flaw
import Invariance.FiniteState.StateSet

/-!
Transition systems with finitely many states, given by their initial states and the successors of
each state; images of sets of states, layered search along a list of constraints, and the path
that such a search leaves behind.
-/

namespace Invariance.FiniteState

def maxState : Nat := 0xffffffff

structure TransitionSystem where
  size : Nat
  init : StateSet
  succ : Array StateSet
  size_le : size ≤ maxState
  init_size : init.size = size
  succ_size : succ.size = size
  succ_sizes : ∀ s ∈ succ, s.size = size

namespace TransitionSystem

def blank (n : Nat) (h : n ≤ maxState) : TransitionSystem where
  size := n
  init := .empty n
  succ := Array.replicate n (.empty n)
  size_le := h
  init_size := rfl
  succ_size := Array.size_replicate
  succ_sizes := fun _ h => by rw [(Array.mem_replicate.mp h).2]; rfl

def new (n : Nat) : Except SystemError TransitionSystem :=
  if n = 0 then .error .emptySystem
  else if h : maxState < n then .error (.tooManyStates n)
  else .ok (blank n (Nat.le_of_not_lt h))

def addInit (sys : TransitionSystem) (x : Nat) : Except SystemError TransitionSystem :=
  if h : x < sys.size then
    .ok { sys with
      init := sys.init.add x (sys.init_size.symm ▸ h)
      init_size := sys.init_size }
  else .error (.stateOutOfRange x sys.size)

def addEdge (sys : TransitionSystem) (x y : Nat) : Except SystemError TransitionSystem :=
  if hx : x < sys.succ.size then
    if hy : y < sys.size then
      .ok { sys with
        succ := sys.succ.set x (sys.succ[x].add y (by
          rw [sys.succ_sizes _ (Array.getElem_mem hx)]; exact hy))
        succ_size := (Array.size_set hx).trans sys.succ_size
        succ_sizes := fun s h => by
          rcases Array.mem_or_eq_of_mem_set h with h | rfl
          · exact sys.succ_sizes s h
          · exact sys.succ_sizes sys.succ[x] (Array.getElem_mem hx) }
    else .error (.stateOutOfRange y sys.size)
  else .error (.stateOutOfRange x sys.size)

def ofEdges (n : Nat) (init : List Nat) (edges : List (Nat × Nat)) :
    Except SystemError TransitionSystem := do
  let sys ← new n
  let sys ← init.foldlM addInit sys
  edges.foldlM (fun sys e => sys.addEdge e.1 e.2) sys

def successors (sys : TransitionSystem) (x : Nat) : Except Violation StateSet :=
  if h : x < sys.succ.size then .ok sys.succ[x] else .error (.indexOutOfRange sys.succ.size x)

def joinSuccessors (sys : TransitionSystem) (next : StateSet) (x : Nat) :
    Except Violation StateSet := do
  let image ← sys.successors x
  if image.isEmpty then return next else next.union image

def post (sys : TransitionSystem) (states : StateSet) : Except Violation StateSet :=
  states.toList.foldlM sys.joinSuccessors (.empty sys.size)

/-- Goes on from a layer: the image of each layer meets one more constraint. No answer as soon as
a layer is empty. -/
def layersFrom (sys : TransitionSystem) (layer : StateSet) (done : List StateSet) :
    List StateSet → Except Violation (Option (List StateSet))
  | [] => if layer.isEmpty then .ok none else .ok (some (layer :: done).reverse)
  | constraint :: rest =>
      if layer.isEmpty then .ok none
      else do
        let next ← (← sys.post layer).inter constraint
        layersFrom sys next (layer :: done) rest

def constrainedLayers (sys : TransitionSystem) (start : StateSet) :
    List StateSet → Except Violation (Option (List StateSet))
  | [] => .ok (some [])
  | constraint :: rest => do
      let layer ← start.inter constraint
      layersFrom sys layer [] rest

def firstPredecessor (sys : TransitionSystem) (x : Nat) : List Nat → Except Violation (Option Nat)
  | [] => .ok none
  | y :: rest => do
      if (← sys.successors y).contains x then return some y else firstPredecessor sys x rest

def retrace (sys : TransitionSystem) (x : Nat) (path : List Nat) :
    List StateSet → Except Violation (List Nat)
  | [] => .ok path
  | layer :: rest => do
      match ← sys.firstPredecessor x layer.toList with
      | some y => retrace sys y (y :: path) rest
      | none => .error (.noPredecessor layer.toList x)

/-- A path through the layers that ends in `last`, a member of the last layer; read backwards, it
takes the smallest predecessor each time. -/
def witness (sys : TransitionSystem) (layers : List StateSet) (last : Nat) :
    Except Violation (List Nat) :=
  retrace sys last [last] layers.dropLast.reverse

end TransitionSystem

end Invariance.FiniteState
