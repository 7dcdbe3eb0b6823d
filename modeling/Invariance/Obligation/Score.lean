/-!
Activity scores: 64-bit floating-point numbers, kept as bit patterns and compared by the total
order on bit patterns, in which -0 is below 0 and a positive NaN is above infinity.
-/

namespace Invariance

structure Score where
  bits : UInt64
  deriving DecidableEq, Inhabited

namespace Score

def zero : Score := ⟨0⟩

def one : Score := ⟨0x3ff0000000000000⟩

/-- Patterns with the sign bit come first and in reverse. -/
def rank (s : Score) : Nat :=
  if s.bits.toNat < 0x8000000000000000 then 0x8000000000000000 + s.bits.toNat
  else 0xffffffffffffffff - s.bits.toNat

instance : Ord Score := ⟨fun s t => compare s.rank t.rank⟩

def bump (s amount : Score) : Score :=
  let sum := Float.ofBits s.bits + Float.ofBits amount.bits
  if 0.0 < sum then ⟨sum.toBits⟩ else zero

theorem rank_injective {s t : Score} (h : s.rank = t.rank) : s = t := by
  have hs := s.bits.toNat_lt
  have ht := t.bits.toNat_lt
  have hbits : s.bits.toNat = t.bits.toNat := by
    simp only [rank] at h
    split at h <;> split at h <;> omega
  cases s; cases t
  exact congrArg Score.mk (UInt64.toNat_inj.mp hbits)

end Score

end Invariance
