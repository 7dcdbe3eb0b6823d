import Invariance.FiniteState.Places
import Invariance.Machine

/-!
Sets of states of a system with finitely many states. A set is the number whose binary digits say
which states are members; no digit at or beyond the number of states is set, so two sets are equal
exactly if they have the same members.

Sets over different numbers of states do not mix: joining them is a violation.
-/

namespace Invariance.FiniteState

structure StateSet where
  size : Nat
  bits : Nat
  lt_size : ∀ x, bits.testBit x = true → x < size
  deriving DecidableEq

namespace StateSet

def empty (n : Nat) : StateSet := ⟨n, 0, fun x h => by simp at h⟩

def full (n : Nat) : StateSet := ⟨n, (1 <<< n) - 1, fun x h => by simpa [testBit_ones] using h⟩

instance : Inhabited StateSet := ⟨empty 0⟩

/-- A set takes one digit per state in words of 64, and rounding the number of states up to whole
words must not leave the range of a counter. -/
def allocatable (n : Nat) : Except Violation Unit := do
  let _ ← Machine.word64.add n 63

def contains (s : StateSet) (x : Nat) : Bool := s.bits.testBit x

def isEmpty (s : StateSet) : Bool := s.bits == 0

def toList (s : StateSet) : List Nat := places s.bits

def card (s : StateSet) : Nat := s.toList.length

theorem contains_empty (n x : Nat) : (empty n).contains x = false := Nat.zero_testBit x

theorem contains_full (n x : Nat) : (full n).contains x = decide (x < n) := testBit_ones

theorem toList_eq_filter (s : StateSet) : s.toList = (List.range s.size).filter s.contains :=
  places_eq_filter s.lt_size

theorem mem_toList {s : StateSet} {x : Nat} : x ∈ s.toList ↔ s.contains x = true := by
  rw [toList_eq_filter, List.mem_filter, List.mem_range]
  exact ⟨fun h => h.2, fun h => ⟨s.lt_size x h, h⟩⟩

theorem ext_contains {s t : StateSet} (hsize : s.size = t.size)
    (h : ∀ x, s.contains x = t.contains x) : s = t := by
  obtain ⟨n, b, hb⟩ := s
  obtain ⟨m, c, hc⟩ := t
  obtain rfl : n = m := hsize
  obtain rfl : b = c := Nat.eq_of_testBit_eq h
  rfl

def first (s : StateSet) : Option Nat := s.toList.head?

def add (s : StateSet) (x : Nat) (h : x < s.size) : StateSet :=
  ⟨s.size, s.bits ||| (1 <<< x), fun y hy => by
    rw [Nat.testBit_or, Bool.or_eq_true] at hy
    rcases hy with hy | hy
    · exact s.lt_size y hy
    · rw [Nat.one_shiftLeft, Nat.testBit_two_pow] at hy
      exact of_decide_eq_true hy ▸ h⟩

theorem contains_add (s : StateSet) (x : Nat) (h : x < s.size) (y : Nat) :
    (s.add x h).contains y = (s.contains y || decide (x = y)) := by
  rw [contains, add, Nat.testBit_or, Nat.one_shiftLeft, Nat.testBit_two_pow]
  rfl

def insert (s : StateSet) (x : Nat) : Except Violation StateSet :=
  if h : x < s.size then .ok (s.add x h) else .error (.stateOutOfRange x)

def ofStates (n : Nat) (states : List Nat) : Except Violation StateSet := do
  allocatable n
  states.foldlM insert (empty n)

def complement (s : StateSet) : StateSet :=
  ⟨s.size, s.bits ^^^ ((1 <<< s.size) - 1), fun x h => by
    rw [Nat.testBit_xor, testBit_ones] at h
    by_cases hx : x < s.size
    · exact hx
    · exact s.lt_size x (by simpa [hx] using h)⟩

theorem contains_complement (s : StateSet) (x : Nat) :
    s.complement.contains x = (decide (x < s.size) && !s.contains x) := by
  rw [contains, complement, Nat.testBit_xor, testBit_ones]
  by_cases hx : x < s.size
  · simp [hx, contains]
  · have hs : s.bits.testBit x = false := by
      cases h : s.bits.testBit x with
      | false => rfl
      | true => exact absurd (s.lt_size x h) hx
    simp [hx, hs]

def union (s t : StateSet) : Except Violation StateSet :=
  if h : s.size = t.size then
    .ok ⟨s.size, s.bits ||| t.bits, fun x hx => by
      rw [Nat.testBit_or, Bool.or_eq_true] at hx
      exact hx.elim (s.lt_size x) fun hx => h ▸ t.lt_size x hx⟩
  else .error (.differentSizes s.size t.size)

def inter (s t : StateSet) : Except Violation StateSet :=
  if s.size = t.size then
    .ok ⟨s.size, s.bits &&& t.bits, fun x hx => by
      rw [Nat.testBit_and, Bool.and_eq_true] at hx
      exact s.lt_size x hx.1⟩
  else .error (.differentSizes s.size t.size)

theorem contains_union {s t r : StateSet} (h : s.union t = .ok r) (x : Nat) :
    r.contains x = (s.contains x || t.contains x) := by
  simp only [union] at h
  split at h
  · cases h
    exact Nat.testBit_or s.bits t.bits x
  · cases h

theorem contains_inter {s t r : StateSet} (h : s.inter t = .ok r) (x : Nat) :
    r.contains x = (s.contains x && t.contains x) := by
  simp only [inter] at h
  split at h
  · cases h
    exact Nat.testBit_and s.bits t.bits x
  · cases h

def render (s : StateSet) : String := braced s.toList

end StateSet

end Invariance.FiniteState
