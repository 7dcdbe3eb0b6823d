import Invariance.Formula.Relocation
import Invariance.Obligation.Score

/-!
Obligations: pending claims that a counter-state cannot be entered at the active frame. The
counter-state alone identifies an obligation; depth, score and then the number of the
counter-state say how urgent it is.
-/

namespace Invariance

structure Obligation where
  /-- The candidate that is carried to the next frame. -/
  forward : Formula
  /-- The counter-state that the obligation refutes. -/
  counter : Formula
  depth : Nat
  score : Score
  deriving DecidableEq, Inhabited

namespace Obligation

def sameAs (a b : Obligation) : Bool := a.counter = b.counter

/-- The greater one is discharged first: the one nearer to the property, then the one with the
higher score, then the one with the smaller counter-state. -/
def urgency (a b : Obligation) : Ordering :=
  (compare b.depth a.depth).then ((compare a.score b.score).then (compare b.counter a.counter))

def bump (a : Obligation) (amount : Score) : Obligation :=
  { a with score := a.score.bump amount }

def relocate (a : Obligation) (r : Relocation) : Option Obligation := do
  let forward ← r.apply a.forward
  let counter ← r.apply a.counter
  return { a with forward, counter }

theorem relocate_eq_some {a b : Obligation} {r : Relocation} : a.relocate r = some b ↔
    r.apply a.forward = some b.forward ∧ r.apply a.counter = some b.counter ∧
      b.depth = a.depth ∧ b.score = a.score := by
  cases b
  cases hf : r.apply a.forward <;> cases hc : r.apply a.counter <;>
    simp [relocate, hf, hc, eq_comm]

end Obligation

end Invariance
