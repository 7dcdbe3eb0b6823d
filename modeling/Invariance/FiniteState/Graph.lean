import Invariance.FiniteState.TransitionSystem
import Invariance.FiniteState.WordSet

/-!
Transition systems as they are entered: the successors of each state are an ascending row, an edge
is looked for by halving its row, and sets of states are kept in words.
-/

namespace Invariance.FiniteState

/-- Where a number stands in an ascending row, or where it would have to be put. -/
inductive Place (size : Nat) where
  | found (i : Fin size)
  | missing (i : Fin (size + 1))

namespace Row

/-- Halves the part of `size` numbers from `base` on until one is left, the only one there that can
be `x`. -/
def narrow (row : Array Nat) (x base size : Nat) (hsize : 0 < size)
    (h : base + size ≤ row.size) : Fin row.size :=
  if hone : size = 1 then ⟨base, by omega⟩
  else if x < row[base + size / 2] then
    narrow row x base (size - size / 2) (by omega) (by omega)
  else narrow row x (base + size / 2) (size - size / 2) (by omega) (by omega)
termination_by size

def locate (row : Array Nat) (x : Nat) : Place row.size :=
  if h : row.size = 0 then .missing 0
  else
    let i := narrow row x 0 row.size (Nat.pos_of_ne_zero h) (Nat.le_of_eq (Nat.zero_add _))
    if row[i] = x then .found i
    else if row[i] < x then .missing i.succ
    else .missing i.castSucc

end Row

structure Graph where
  size : Nat
  init : WordSet
  succ : Array (Array Nat)

namespace Graph

def new (n : Nat) : Except SystemError Graph :=
  if n = 0 then .error .emptySystem
  else if maxState < n then .error (.tooManyStates n)
  else .ok ⟨n, .empty n, Array.replicate n #[]⟩

def check (g : Graph) (x : Nat) : Checked Unit :=
  if x < g.size then .ok () else .refuse (.stateOutOfRange x g.size)

def addInit (g : Graph) (x : Nat) : Checked Graph := do
  g.check x
  return { g with init := ← Checked.ofExcept (g.init.insert x) }

def addEdge (g : Graph) (x y : Nat) : Checked Graph := do
  g.check x
  g.check y
  if h : x < g.succ.size then
    match Row.locate g.succ[x] y with
    | .found _ => return g
    | .missing i => return { g with succ := g.succ.set x (g.succ[x].insertIdx i y) }
  else Checked.ofExcept (.error (.indexOutOfRange g.succ.size x))

def ofEdges (n : Nat) (init : List Nat) (edges : List (Nat × Nat)) : Checked Graph := do
  let g ← (new n).mapError .error
  let g ← init.foldlM addInit g
  edges.foldlM (fun g e => g.addEdge e.1 e.2) g

def successors (g : Graph) (x : Nat) : Except Violation (Array Nat) :=
  match g.succ[x]? with
  | some row => .ok row
  | none => .error (.indexOutOfRange g.succ.size x)

def post (g : Graph) (states : WordSet) : Except Violation WordSet :=
  states.toList.foldlM (fun next x => do (← g.successors x).foldlM WordSet.insert next)
    (.empty g.size)

/-- The layers after those in `done`, which are listed backwards. No answer as soon as a layer is
empty. -/
def layersAfter (g : Graph) (start : WordSet) (done : List WordSet) :
    List WordSet → Except Violation (Option (List WordSet))
  | [] => .ok (some done.reverse)
  | constraint :: rest => do
      let source ← match done with
        | [] => .ok start
        | last :: _ => g.post last
      let layer ← source.inter constraint
      if layer.isEmpty then return none else layersAfter g start (layer :: done) rest

def constrainedLayers (g : Graph) (start : WordSet) (constraints : List WordSet) :
    Except Violation (Option (List WordSet)) :=
  g.layersAfter start [] constraints

def hasEdge (g : Graph) (x y : Nat) : Except Violation Bool := do
  match Row.locate (← g.successors x) y with
  | .found _ => return true
  | .missing _ => return false

def firstPredecessor (g : Graph) (x : Nat) : List Nat → Except Violation (Option Nat)
  | [] => .ok none
  | y :: rest => do if ← g.hasEdge y x then return some y else firstPredecessor g x rest

def retrace (g : Graph) (x : Nat) (path : List Nat) : List WordSet → Except Violation (List Nat)
  | [] => .ok path
  | layer :: rest => do
      match ← g.firstPredecessor x layer.toList with
      | some y => retrace g y (y :: path) rest
      | none => .error (.noPredecessor layer.toList x)

def witness (g : Graph) (layers : List WordSet) (last : Nat) : Except Violation (List Nat) :=
  g.retrace last [last] layers.dropLast.reverse

end Graph

end Invariance.FiniteState
