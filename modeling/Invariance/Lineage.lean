import Invariance.Fault
import Invariance.Formula.Relocation

/-!
Lineage: why each formula was learnt, and which formulas have been falsified. A learnt formula
points at its parent, the formula whose counter-state it refutes. Everything is keyed by formulas,
so one relocation rewrites the whole graph.
-/

namespace Invariance

/-- Says of a learnt formula which counter-state it refutes, to which formula that was a
counter-state, and the induction depth at which it was found. -/
structure Origin where
  parent : Formula
  refutes : Formula
  depth : Nat
  deriving DecidableEq

def Origin.relocate (o : Origin) (r : Relocation) : Option Origin := do
  let refutes ← r.apply o.refutes
  let parent ← r.apply o.parent
  return { o with parent, refutes }

theorem Origin.relocate_eq_some {o o' : Origin} {r : Relocation} : o.relocate r = some o' ↔
    r.apply o.refutes = some o'.refutes ∧ r.apply o.parent = some o'.parent ∧
      o'.depth = o.depth := by
  cases o'
  cases hr : r.apply o.refutes <;> cases hp : r.apply o.parent <;>
    simp [relocate, hr, hp, and_left_comm, eq_comm]

inductive Stroke where
  | mark (f : Formula)
  | arrow (source target : Formula)
  deriving DecidableEq

def Stroke.render : Stroke → String
  | .mark f => s!"{f.id} [color = red];\n"
  | .arrow source target => s!"{source.id}->{target.id};\n"

structure Lineage where
  origins : FormulaMap Origin := .empty
  invalid : FormulaMap Nat := .empty
  properties : FormulaSet := .empty
  propertyInvalid : Bool := false
  deriving Inhabited

namespace Lineage

def size (l : Lineage) : Nat := l.origins.size

def isEmpty (l : Lineage) : Bool := l.origins.isEmpty

def origin? (l : Lineage) (learnt : Formula) : Option Origin := l.origins.get? learnt

def isProperty (l : Lineage) (f : Formula) : Bool := l.properties.contains f

def isInvalid (l : Lineage) (f : Formula) : Bool := l.invalid.contains f

def invalidFrame? (l : Lineage) (f : Formula) : Option Nat := l.invalid.get? f

def addProperty (l : Lineage) (p : Formula) : Lineage :=
  { l with properties := l.properties.insert p }

def addOrigin (l : Lineage) (learnt : Formula) (o : Origin) : Lineage :=
  { l with origins := l.origins.insert learnt o }

def markPropertyInvalid (l : Lineage) : Lineage := { l with propertyInvalid := true }

def markInvalid (l : Lineage) (f : Formula) (frame : Nat) : Except Violation Lineage :=
  if l.isInvalid f then .error (.alreadyInvalid f)
  else .ok
    { l with
      invalid := l.invalid.insert f frame
      propertyInvalid := l.propertyInvalid || l.isProperty f }

def relocate (l : Lineage) (r : Relocation) : Lineage :=
  { l with
    origins := l.origins.rekey fun (f, o) => do return (← r.apply f, ← o.relocate r)
    invalid := l.invalid.rekey fun (f, frame) => do return (← r.apply f, frame)
    properties := l.properties.relocate r }

def strokes (l : Lineage) : List Stroke :=
  l.origins.entries.flatMap fun (f, o) =>
    (if l.isInvalid f then [.mark f] else []) ++ [.arrow f o.parent]

def dot (l : Lineage) : List String :=
  "digraph G \x7b\n" :: l.strokes.map Stroke.render ++ ["\x7d\n"]

end Lineage

end Invariance
