/-!
The places of the digit 1 in the binary form of a number. They are found by halving, and a half
without such a digit is passed over as a whole, so a number with few of them is listed fast however
long it is. The list is the ascending list of all `x` with `testBit x`.
-/

namespace Invariance.FiniteState

/-- The places in `bits`, a number of at most `1 <<< depth` digits, counted from `start` and put in
front of `rest`. -/
def placesWithin : (depth : Nat) → (bits start : Nat) → (rest : List Nat) → List Nat
  | 0, bits, start, rest => if bits = 0 then rest else start :: rest
  | depth + 1, bits, start, rest =>
      if bits = 0 then rest
      else
        let half := 1 <<< depth
        placesWithin depth (bits &&& ((1 <<< half) - 1)) start
          (placesWithin depth (bits >>> half) (start + half) rest)

def places (bits : Nat) : List Nat := placesWithin (bits.log2.log2 + 1) bits 0 []

theorem testBit_ones {n x : Nat} : ((1 <<< n) - 1).testBit x = decide (x < n) := by
  rw [Nat.one_shiftLeft, Nat.testBit_two_pow_sub_one]

theorem testBit_zero_of_lt_one {bits : Nat} (h0 : bits ≠ 0)
    (h : ∀ x, bits.testBit x = true → x < 1) : bits.testBit 0 = true := by
  cases hb : bits.testBit 0 with
  | true => rfl
  | false =>
      refine absurd (Nat.eq_of_testBit_eq fun x => ?_) h0
      cases hx : bits.testBit x with
      | false => exact (Nat.zero_testBit x).symm
      | true =>
          obtain rfl : x = 0 := Nat.lt_one_iff.mp (h x hx)
          exact absurd (hb.symm.trans hx) Bool.false_ne_true

theorem placesWithin_eq : ∀ {depth bits : Nat} (start : Nat) (rest : List Nat),
    (∀ x, bits.testBit x = true → x < 1 <<< depth) →
    placesWithin depth bits start rest =
      ((List.range (1 <<< depth)).filter bits.testBit).map (start + ·) ++ rest := by
  intro depth
  induction depth with
  | zero =>
      intro bits start rest h
      have hrange : List.range (1 <<< 0) = [0] := rfl
      rw [hrange, placesWithin]
      split
      next h0 => subst h0; simp
      next h0 => simp [testBit_zero_of_lt_one h0 h]
  | succ depth ih =>
      intro bits start rest h
      rw [placesWithin]
      split
      next h0 => subst h0; simp
      next h0 =>
        have hsum : 1 <<< (depth + 1) = 1 <<< depth + 1 <<< depth := by
          rw [Nat.shiftLeft_succ, Nat.two_mul]
        have hlow : ∀ x, (bits &&& ((1 <<< (1 <<< depth)) - 1)).testBit x
            = (bits.testBit x && decide (x < 1 <<< depth)) := fun x => by
          rw [Nat.testBit_and, testBit_ones]
        have hhigh : ∀ x, (bits >>> (1 <<< depth)).testBit x = bits.testBit (1 <<< depth + x) :=
          fun x => Nat.testBit_shiftRight bits
        have hlowlt : ∀ x, (bits &&& ((1 <<< (1 <<< depth)) - 1)).testBit x = true →
            x < 1 <<< depth := fun x hx => by
          rw [hlow, Bool.and_eq_true] at hx
          exact of_decide_eq_true hx.2
        have hhighlt : ∀ x, (bits >>> (1 <<< depth)).testBit x = true →
            x < 1 <<< depth := fun x hx => by
          rw [hhigh] at hx
          exact Nat.lt_of_add_lt_add_left (hsum ▸ h _ hx)
        simp only
        rw [ih start _ hlowlt, ih (start + 1 <<< depth) rest hhighlt, hsum, List.range_add,
          List.filter_append, List.map_append, List.append_assoc]
        congr 1
        · refine congrArg _ (List.filter_congr fun x hx => ?_)
          rw [hlow, decide_eq_true (List.mem_range.mp hx), Bool.and_true]
        · rw [List.filter_map, List.map_map]
          congr 1
          have hfun : bits.testBit ∘ (1 <<< depth + ·) = (bits >>> (1 <<< depth)).testBit :=
            funext fun x => (hhigh x).symm
          rw [hfun]
          exact List.map_congr_left fun x _ => Nat.add_assoc start (1 <<< depth) x

theorem lt_of_testBit {bits x : Nat} (h : bits.testBit x = true) :
    x < 1 <<< (bits.log2.log2 + 1) := by
  have hbits : bits ≠ 0 := fun h0 => by
    rw [h0, Nat.zero_testBit] at h
    exact Bool.false_ne_true h
  rw [Nat.one_shiftLeft]
  exact Nat.lt_of_le_of_lt ((Nat.le_log2 hbits).mpr (Nat.ge_two_pow_of_testBit h))
    Nat.lt_log2_self

theorem filter_range_of_le {n m : Nat} {p : Nat → Bool} (hnm : n ≤ m)
    (h : ∀ x, p x = true → x < n) : (List.range m).filter p = (List.range n).filter p := by
  obtain ⟨k, rfl⟩ := Nat.exists_eq_add_of_le hnm
  have hnil : ((List.range k).map (n + ·)).filter p = [] :=
    List.filter_eq_nil_iff.mpr fun x hx hp => by
      obtain ⟨y, _, rfl⟩ := List.mem_map.mp hx
      exact Nat.not_lt_of_le (Nat.le_add_right n y) (h _ hp)
  rw [List.range_add, List.filter_append, hnil, List.append_nil]

theorem filter_range_congr {n m : Nat} {p : Nat → Bool} (hn : ∀ x, p x = true → x < n)
    (hm : ∀ x, p x = true → x < m) : (List.range m).filter p = (List.range n).filter p := by
  rcases Nat.le_total n m with hnm | hmn
  · exact filter_range_of_le hnm hn
  · exact (filter_range_of_le hmn hm).symm

theorem places_eq_filter {n bits : Nat} (h : ∀ x, bits.testBit x = true → x < n) :
    places bits = (List.range n).filter bits.testBit := by
  rw [places, placesWithin_eq 0 [] fun x hx => lt_of_testBit hx, List.append_nil,
    filter_range_congr h fun x hx => lt_of_testBit hx]
  simp

end Invariance.FiniteState
