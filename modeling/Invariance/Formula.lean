/-!
Formulas as handles. A formula belongs to a store of terms that lives elsewhere; the search knows
it by its number alone, compares it by that number and prints it by that number.
-/

namespace Invariance

structure Formula where
  id : Nat
  deriving DecidableEq, Inhabited

namespace Formula

instance : LT Formula := ⟨fun f g => f.id < g.id⟩

instance : DecidableLT Formula := fun f g => Nat.decLt f.id g.id

instance : Ord Formula := ⟨fun f g => compare f.id g.id⟩

theorem lt_def {f g : Formula} : f < g ↔ f.id < g.id := Iff.rfl

def render (f : Formula) : String := "#" ++ toString f.id

def describe (f : Formula) : String := "Formula(" ++ f.render ++ ")"

instance : ToString Formula := ⟨render⟩

end Formula

end Invariance
