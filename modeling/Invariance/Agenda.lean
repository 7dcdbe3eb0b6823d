import Invariance.Fault
import Invariance.Obligation

/-!
The agenda: the obligations of the active frame, the most urgent one first. It is an indexed
binary heap over a row of slots. An obligation keeps its slot while it waits, so the slot number
serves as a handle; a second index finds the slot of a counter-state.

Every access to a slot or to the heap is checked, and a failed one is a violation.
-/

namespace Invariance

structure Agenda where
  slots : Array (Option Obligation) := #[]
  vacant : List Nat := []
  heap : Array Nat := #[]
  /-- For an occupied slot, its place in the heap. -/
  place : Array Nat := #[]
  handles : FormulaMap Nat := .empty
  deriving Inhabited

namespace Agenda

def empty : Agenda := {}

def fetch {α : Type} (row : Array α) (i : Nat) : Except Violation α :=
  if h : i < row.size then .ok row[i] else .error (.indexOutOfRange row.size i)

def store {α : Type} (row : Array α) (i : Nat) (a : α) : Except Violation (Array α) :=
  if h : i < row.size then .ok (row.set i a h) else .error (.indexOutOfRange row.size i)

def size (q : Agenda) : Nat := q.heap.size

def isEmpty (q : Agenda) : Bool := q.heap.isEmpty

def contains (q : Agenda) (counter : Formula) : Bool := q.handles.contains counter

def handle? (q : Agenda) (counter : Formula) : Option Nat := q.handles.get? counter

def get? (q : Agenda) (slot : Nat) : Option Obligation := (q.slots[slot]?).join

def occupant (q : Agenda) (slot : Nat) : Except Violation Obligation := do
  match ← fetch q.slots slot with
  | some ob => .ok ob
  | none => .error .emptySlot

def entry (q : Agenda) (i : Nat) : Except Violation Obligation := do
  q.occupant (← fetch q.heap i)

def peek (q : Agenda) : Except Violation (Option Obligation) :=
  if q.isEmpty then .ok none else some <$> q.entry 0

def toList (q : Agenda) : Except Violation (List Obligation) := q.heap.toList.mapM q.occupant

def higher (q : Agenda) (i j : Nat) : Except Violation Bool := do
  let a ← q.entry i
  let b ← q.entry j
  return a.urgency b == .gt

def swap (q : Agenda) (i j : Nat) : Except Violation Agenda := do
  let a ← fetch q.heap i
  let b ← fetch q.heap j
  let heap ← store (← store q.heap i b) j a
  let place ← store (← store q.place b i) a j
  return { q with heap, place }

def siftUp : (bound : Nat) → Agenda → (i : Nat) → Except Violation Agenda
  | 0, q, _ => .ok q
  | bound + 1, q, i =>
      if i = 0 then .ok q
      else do
        let parent := (i - 1) / 2
        if ← q.higher i parent then siftUp bound (← q.swap i parent) parent else return q

def prefer (q : Agenda) (child best : Nat) : Except Violation Nat :=
  if child < q.size then do
    if ← q.higher child best then return child else return best
  else .ok best

/-- Moves the entry at `i` towards the leaves; `bound` is at least the number of entries from `i`
on. -/
def siftDown : (bound : Nat) → Agenda → (i : Nat) → Except Violation Agenda
  | 0, q, _ => .ok q
  | bound + 1, q, i => do
      let best ← q.prefer (2 * i + 2) (← q.prefer (2 * i + 1) i)
      if best = i then return q else siftDown bound (← q.swap i best) best

def occupy (q : Agenda) (ob : Obligation) : Except Violation (Nat × Agenda) :=
  match q.vacant with
  | slot :: vacant => do
      let slots ← store q.slots slot (some ob)
      return (slot, { q with slots, vacant })
  | [] => .ok (q.slots.size, { q with slots := q.slots.push (some ob), place := q.place.push 0 })

def push (q : Agenda) (ob : Obligation) : Except Violation (Nat × Agenda) :=
  if q.contains ob.counter then .error (.alreadyQueued ob.counter)
  else do
    let (slot, q) ← q.occupy ob
    let i := q.size
    let place ← store q.place slot i
    let q ← siftUp i { q with heap := q.heap.push slot, place } i
    return (slot, { q with handles := q.handles.insert ob.counter slot })

def pop (q : Agenda) : Except Violation (Obligation × Agenda) :=
  if q.isEmpty then .error .emptyAgenda
  else do
    let last := q.size - 1
    let q ← q.swap 0 last
    let slot ← fetch q.heap last
    let q := { q with heap := q.heap.pop }
    let q ← if q.isEmpty then pure q else siftDown q.size q 0
    let ob ← q.occupant slot
    let slots ← store q.slots slot none
    return (ob, { q with slots, vacant := slot :: q.vacant, handles := q.handles.erase ob.counter })

def reorder (q : Agenda) (slot : Nat) : Except Violation Agenda := do
  let i ← fetch q.place slot
  let q ← siftUp i q i
  siftDown q.size q (← fetch q.place slot)

def bump (q : Agenda) (counter : Formula) (amount : Score) : Except Violation (Bool × Agenda) :=
  match q.handle? counter with
  | none => .ok (false, q)
  | some slot => do
      let ob ← fetch q.slots slot
      let slots ← store q.slots slot (ob.map (·.bump amount))
      return (true, ← { q with slots }.reorder slot)

def bySlot (q : Agenda) : List Obligation := q.slots.toList.filterMap id

def ofList (obs : List Obligation) : Except Violation Agenda :=
  obs.foldlM (fun q ob => do return (← q.push ob).2) empty

def retain (q : Agenda) (keep : Obligation → Bool) : Except Violation (Nat × Agenda) := do
  let kept ← ofList (q.bySlot.filter keep)
  return (q.bySlot.length - kept.size, kept)

def relocateOne (r : Relocation) (acc : Nat × Agenda) (ob : Obligation) :
    Except Violation (Nat × Agenda) :=
  match ob.relocate r with
  | none => .ok (acc.1 + 1, acc.2)
  | some ob =>
      if acc.2.contains ob.counter then .ok (acc.1 + 1, acc.2)
      else do return (acc.1, (← acc.2.push ob).2)

/-- Rewrites the obligations slot by slot and says how many are gone. Of two that now refute the
same counter-state the first one stays. -/
def relocate (q : Agenda) (r : Relocation) : Except Violation (Nat × Agenda) :=
  q.bySlot.foldlM (relocateOne r) (0, empty)

end Agenda

end Invariance
