import Invariance.Obligation

/-!
The order in which obligations are discharged. It is a strict order, and two obligations that
refute different counter-states always come one before the other.
-/

namespace Invariance.Obligation

def Precedes (a b : Obligation) : Prop := a.urgency b = .gt

theorem precedes_iff {a b : Obligation} :
    a.Precedes b ↔ a.depth < b.depth ∨ a.depth = b.depth ∧
      (b.score.rank < a.score.rank ∨ b.score.rank = a.score.rank ∧
        a.counter.id < b.counter.id) := by
  have hscore : compare a.score b.score = compare a.score.rank b.score.rank := rfl
  have hcounter : compare b.counter a.counter = compare b.counter.id a.counter.id := rfl
  rw [Precedes, urgency, hscore, hcounter, Ordering.then_eq_gt, Ordering.then_eq_gt,
    Nat.compare_eq_gt, Nat.compare_eq_gt, Nat.compare_eq_gt, Nat.compare_eq_eq, Nat.compare_eq_eq]
  omega

instance (a b : Obligation) : Decidable (a.Precedes b) := decEq _ _

theorem not_precedes_self (a : Obligation) : ¬ a.Precedes a := by
  rw [precedes_iff]
  omega

theorem Precedes.not_precedes {a b : Obligation} (h : a.Precedes b) : ¬ b.Precedes a := by
  rw [precedes_iff] at h ⊢
  omega

theorem not_precedes_trans {a b c : Obligation} (hab : ¬ a.Precedes b) (hbc : ¬ b.Precedes c) :
    ¬ a.Precedes c := by
  rw [precedes_iff] at hab hbc ⊢
  omega

theorem precedes_or_precedes {a b : Obligation} (h : a.counter ≠ b.counter) :
    a.Precedes b ∨ b.Precedes a := by
  have hid : a.counter.id ≠ b.counter.id := fun hid => h (congrArg Formula.mk hid)
  rw [precedes_iff, precedes_iff]
  omega

theorem depth_le_of_not_precedes {a b : Obligation} (h : ¬ b.Precedes a) : a.depth ≤ b.depth := by
  rw [precedes_iff] at h
  omega

end Invariance.Obligation
