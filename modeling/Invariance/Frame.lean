import Invariance.Fault
import Invariance.Formula.Relocation

/-!
The induction frame: the formulas that are assumed at the active frame. A formula added in the
role `first` is a member, one added as `intermediate` is only noted, and both are passed on to the
induction solver. Bookkeeping members enter and leave without the solver's knowledge.
-/

namespace Invariance

/-- Where a k-step induction check assumes a formula: at its first step or at the steps between
the first and the last. -/
inductive Role where
  | first | intermediate
  deriving DecidableEq

structure Registry (σ : Type) where
  register : Formula → Role → Action σ Unit
  reset : Nat → Action σ Unit

structure Frame where
  members : FormulaSet := .empty
  intermediate : FormulaSet := .empty
  deriving Inhabited

namespace Frame

variable {σ : Type}

def empty : Frame := {}

def size (frame : Frame) : Nat := frame.members.size

def isEmpty (frame : Frame) : Bool := frame.members.isEmpty

def contains (frame : Frame) (f : Formula) : Bool := frame.members.contains f

def toList (frame : Frame) : List Formula := frame.members.toList

def insert (frame : Frame) (f : Formula) : Frame :=
  { frame with members := frame.members.insert f }

def erase (frame : Frame) (f : Formula) : Frame :=
  { frame with members := frame.members.erase f }

def enter (frame : Frame) (f : Formula) : Role → Except Violation Frame
  | .first =>
      if frame.contains f then .error (.alreadyInFrame f) else .ok (frame.insert f)
  | .intermediate =>
      if frame.intermediate.contains f then .error (.alreadyIntermediate f)
      else .ok { frame with intermediate := frame.intermediate.insert f }

def add (registry : Registry σ) (f : Formula) (role : Role) : Action (Frame × σ) Unit := do
  let (frame, _) ← get
  let frame ← Action.ofExcept (frame.enter f role)
  modify fun s => (frame, s.2)
  Action.within Prod.snd (fun w s => (s.1, w)) (registry.register f role)

def clear (registry : Registry σ) (depth : Nat) : Action (Frame × σ) Unit := do
  modify fun s => (empty, s.2)
  Action.within Prod.snd (fun w s => (s.1, w)) (registry.reset depth)

def relocate (frame : Frame) (r : Relocation) : Frame :=
  { members := frame.members.relocate r, intermediate := frame.intermediate.relocate r }

theorem contains_insert {frame : Frame} {f g : Formula} :
    (frame.insert f).contains g = true ↔ g = f ∨ frame.contains g = true := by
  rw [contains, insert, FormulaSet.contains_insert, Bool.or_eq_true, decide_eq_true_eq]
  rfl

theorem contains_enter {frame frame' : Frame} {f g : Formula} {role : Role}
    (h : frame.enter f role = .ok frame') :
    frame'.contains g = true ↔ role = .first ∧ g = f ∨ frame.contains g = true := by
  cases role <;> rw [enter] at h <;> split at h
  · cases h
  · obtain rfl := Except.ok.inj h
    simp [contains_insert]
  · cases h
  · obtain rfl := Except.ok.inj h
    simp [contains]

theorem contains_erase {frame : Frame} {f g : Formula} :
    (frame.erase f).contains g = true ↔ g ≠ f ∧ frame.contains g = true := by
  simp [contains, erase, FormulaMap.contains_erase]

theorem contains_foldl_insert {α : Type} {name : α → Formula} {l : List α} {frame : Frame}
    {f : Formula} : (l.foldl (fun frame a => frame.insert (name a)) frame).contains f = true ↔
      (∃ a ∈ l, name a = f) ∨ frame.contains f = true := by
  induction l generalizing frame with
  | nil => simp
  | cons a l ih =>
      rw [List.foldl_cons, ih, contains_insert, or_left_comm, eq_comm]
      simp only [List.mem_cons, exists_eq_or_imp, or_assoc]

end Frame

end Invariance
