import Invariance.Formula.Map

/-!
What a sweep of the term store did to the formulas: some got a new number, some were collected,
and all others kept their number. A relocation is applied to everything at once, so a chain of
moves does not cascade.
-/

namespace Invariance

/-- `some g` under a formula says that it is `g` from now on, and `none` that it is gone. -/
structure Relocation where
  fate : FormulaMap (Option Formula) := .empty

namespace Relocation

def move (r : Relocation) (source target : Formula) : Relocation :=
  ⟨r.fate.insert source (some target)⟩

def collect (r : Relocation) (f : Formula) : Relocation := ⟨r.fate.insert f none⟩

def apply (r : Relocation) (f : Formula) : Option Formula :=
  match r.fate.get? f with
  | none => some f
  | some fate => fate

theorem apply_empty (f : Formula) : ({} : Relocation).apply f = some f := rfl

theorem apply_move (r : Relocation) (source target f : Formula) :
    (r.move source target).apply f = if f = source then some target else r.apply f := by
  rw [apply, move, FormulaMap.get?_insert]
  by_cases h : f = source
  · rw [if_pos h, if_pos h]
  · rw [if_neg h, if_neg h]; rfl

theorem apply_collect (r : Relocation) (g f : Formula) :
    (r.collect g).apply f = if f = g then none else r.apply f := by
  rw [apply, collect, FormulaMap.get?_insert]
  by_cases h : f = g
  · rw [if_pos h, if_pos h]
  · rw [if_neg h, if_neg h]; rfl

def moved (r : Relocation) : Nat := r.fate.entries.countP fun x => x.2.isSome

def collected (r : Relocation) : Nat := r.fate.entries.countP fun x => x.2.isNone

def isIdentity (r : Relocation) : Bool := r.fate.entries.all fun x => x.2 = some x.1

end Relocation

def FormulaSet.relocate (s : FormulaSet) (r : Relocation) : FormulaSet :=
  FormulaSet.ofList (s.toList.filterMap r.apply)

theorem FormulaSet.contains_relocate {s : FormulaSet} {r : Relocation} {g : Formula} :
    (s.relocate r).contains g = true ↔ ∃ f, s.contains f = true ∧ r.apply f = some g := by
  rw [relocate, contains_ofList, decide_eq_true_eq, List.mem_filterMap]
  simp only [mem_toList]

end Invariance
