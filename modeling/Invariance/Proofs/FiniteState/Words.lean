import Invariance.FiniteState.WordSet
import Invariance.Proofs.FiniteState.Images

/-!
What the operations on sets in words do, bit by bit. The lowest one of a word is found and cleared,
so its ones are listed in ascending order; no operation leaves a bit set past the last state, and a
set is read off as the places of its bits.
-/

namespace Invariance.FiniteState

namespace Word

variable {w : Word} {i k : Nat}

theorem getLsbD_single : (single k).getLsbD i = (decide (i < 64) && decide (i = k)) := by
  rw [single, BitVec.getLsbD_shiftLeft, BitVec.getLsbD_one]
  by_cases h : i = k
  · subst h; simp
  · have hne : ¬ (i < k) → i - k ≠ 0 := by omega
    by_cases hlt : i < k <;> simp_all

theorem and_single_eq : (w &&& single k != 0#64) = w.getLsbD k := by
  by_cases hk : w.getLsbD k = true
  · rw [hk, bne_iff_ne]
    intro h
    have hbit : (w &&& single k).getLsbD k = (0#64).getLsbD k := by rw [h]
    rw [BitVec.getLsbD_and, getLsbD_single, hk] at hbit
    simp [BitVec.lt_of_getLsbD hk] at hbit
  · rw [Bool.eq_false_iff.mpr hk, bne_eq_false_iff_eq]
    refine BitVec.eq_of_getLsbD_eq fun i _ => ?_
    rw [BitVec.getLsbD_and, getLsbD_single, BitVec.getLsbD_zero]
    by_cases h : i = k
    · subst h; simp [hk]
    · simp [h]

/-- A number above zero ends in a one and `k` zeros. -/
theorem exists_lowest {n : Nat} (h : n.testBit k = true) (hlow : ∀ i < k, n.testBit i = false) :
    ∃ m, n = (2 * m + 1) <<< k := by
  refine ⟨n >>> (k + 1), Nat.eq_of_testBit_eq fun i => ?_⟩
  rw [Nat.testBit_shiftLeft]
  rcases Nat.lt_trichotomy i k with hi | rfl | hi
  · simp [hlow i hi, hi]
  · simp [h]
  · obtain ⟨j, rfl⟩ := Nat.exists_eq_add_of_lt hi
    have hhalf : (2 * n >>> (k + 1) + 1).testBit (j + 1) = n.testBit (k + j + 1) := by
      rw [Nat.testBit_succ, show (2 * n >>> (k + 1) + 1) / 2 = n >>> (k + 1) by omega,
        Nat.testBit_shiftRight, Nat.add_right_comm]
    rw [show k + j + 1 - k = j + 1 by omega, hhalf, decide_eq_true (Nat.le_of_lt hi),
      Bool.true_and]

theorem getLsbD_clearLowest (h : w ≠ 0#64) :
    (clearLowest w).getLsbD i = (w.getLsbD i && decide (i ≠ w.ctz.toNat)) := by
  have hone : w.toNat.testBit w.ctz.toNat = true := BitVec.getLsbD_true_ctz_of_ne_zero h
  obtain ⟨m, hm⟩ := exists_lowest hone fun i hi => BitVec.getLsbD_false_of_lt_ctz hi
  generalize w.ctz.toNat = k at hm ⊢
  have hpos : 0 < 2 ^ k := Nat.two_pow_pos k
  have hlt : 2 ^ k < 2 ^ (k + 1) := Nat.pow_lt_pow_right (by decide) (Nat.lt_succ_self k)
  have hsplit : w.toNat = 2 ^ (k + 1) * m + 2 ^ k := by
    rw [hm, Nat.shiftLeft_eq, Nat.add_mul, Nat.one_mul, Nat.pow_succ]
    congr 1
    ac_rfl
  have hle : 1#64 ≤ w := by
    change 1 ≤ w.toNat
    omega
  have hpred : (w - 1#64).toNat = 2 ^ (k + 1) * m + (2 ^ k - 1) := by
    rw [BitVec.toNat_sub_of_le hle, hsplit]
    exact Nat.add_sub_assoc hpos _
  rw [clearLowest, BitVec.getLsbD_and]
  change (w.toNat.testBit i && (w - 1#64).toNat.testBit i) = (w.toNat.testBit i && _)
  rw [hpred, hsplit, Nat.testBit_two_pow_mul_add _ hlt, Nat.testBit_two_pow_mul_add _ (by omega)]
  split
  next hi =>
    rw [Nat.testBit_two_pow, Nat.testBit_two_pow_sub_one]
    by_cases hik : k = i
    · subst hik; simp
    · simp [hik]
  next hi =>
    have hne : i ≠ k := by omega
    simp [hne]

theorem getLsbD_single_sub_one (hk : k < 64) :
    (single k - 1#64).getLsbD i = decide (i < k) := by
  have hpow : 2 ^ k < 2 ^ 64 := Nat.pow_lt_pow_right (by decide) hk
  have hsingle : (single k).toNat = 2 ^ k := by
    rw [single, BitVec.toNat_shiftLeft, BitVec.toNat_ofNat, Nat.shiftLeft_eq,
      Nat.one_mod_eq_one.mpr (by decide), Nat.one_mul, Nat.mod_eq_of_lt hpow]
  have hle : 1#64 ≤ single k := by
    change 1 ≤ (single k).toNat
    rw [hsingle]
    exact Nat.two_pow_pos k
  change (single k - 1#64).toNat.testBit i = _
  rw [BitVec.toNat_sub_of_le hle, hsingle]
  exact Nat.testBit_two_pow_sub_one ..

/-- Taking the least one out of those in a range. -/
theorem filter_range_cons {p q : Nat → Bool} {n : Nat} (hk : k < n) (hp : p k = true)
    (hlow : ∀ i < k, p i = false) (hq : ∀ i, q i = (p i && decide (i ≠ k))) :
    (List.range n).filter p = k :: (List.range n).filter q := by
  induction n with
  | zero => cases hk
  | succ n ih =>
      rw [List.range_succ, List.filter_append, List.filter_append]
      rcases Nat.lt_succ_iff_lt_or_eq.mp hk with hlt | rfl
      · have hlast : p n = q n := by
          rw [hq, decide_eq_true (Nat.ne_of_gt hlt), Bool.and_true]
        rw [ih hlt, List.cons_append, List.filter_singleton, List.filter_singleton, hlast]
      · have hnone : (List.range k).filter p = [] :=
          List.filter_eq_nil_iff.mpr fun i hi => by simp [hlow i (List.mem_range.mp hi)]
        have hnone' : (List.range k).filter q = [] :=
          List.filter_eq_nil_iff.mpr fun i hi => by simp [hq, hlow i (List.mem_range.mp hi)]
        rw [hnone, hnone']
        simp [hp, hq]

theorem ones_eq : ones w = (List.range 64).filter w.getLsbD := by
  fun_induction ones w with
  | case1 => simp
  | case2 w h ih =>
      have hlt : w.ctz.toNat < 64 := BitVec.lt_of_getLsbD (BitVec.getLsbD_true_ctz_of_ne_zero h)
      rw [ih, filter_range_cons hlt (BitVec.getLsbD_true_ctz_of_ne_zero h)
        (fun i hi => BitVec.getLsbD_false_of_lt_ctz hi) fun i => getLsbD_clearLowest h]

theorem cpopNatRec_eq : ∀ n, w.cpopNatRec n 0 = ((List.range n).filter w.getLsbD).length
  | 0 => rfl
  | n + 1 => by
      rw [BitVec.cpopNatRec_succ, BitVec.cpopNatRec_add, cpopNatRec_eq n, List.range_succ,
        List.filter_append, List.length_append]
      cases hn : w.getLsbD n <;> simp [hn]

theorem toNat_cpop_eq : w.cpop.toNat = (ones w).length := by
  rw [BitVec.toNat_cpop, cpopNatRec_eq, ones_eq]

end Word

namespace WordSet

variable {s t : WordSet} {n i x : Nat}

/-- The bit at a place, also at one past the last state. -/
def bit (s : WordSet) (i : Nat) : Bool := (s.words[i / 64]?.getD 0#64).getLsbD (i % 64)

/-- As many words as `n` states need, and no bit set past the last of them. -/
structure Fits (s : WordSet) (n : Nat) : Prop where
  size : s.size = n
  width : s.words.size = (n + 63) / 64
  clear : ∀ i, s.bit i = true → i < n

theorem bit_of_lt (h : i / 64 < s.words.size) : s.bit i = s.words[i / 64].getLsbD (i % 64) := by
  rw [bit, Array.getElem?_eq_getElem h, Option.getD_some]

theorem bit_of_le (h : s.words.size ≤ i / 64) : s.bit i = false := by
  rw [bit, Array.getElem?_eq_none h, Option.getD_none, BitVec.getLsbD_zero]

theorem bit_word {j k : Nat} (hj : j < s.words.size) (hk : k < 64) :
    s.bit (64 * j + k) = s.words[j].getLsbD k := by
  have hdiv : (64 * j + k) / 64 = j := by omega
  have hmod : (64 * j + k) % 64 = k := by omega
  rw [bit, hdiv, hmod, Array.getElem?_eq_getElem hj, Option.getD_some]

theorem bit_mk {words : Array Word} :
    bit ⟨n, words⟩ i = (words[i / 64]?.getD 0#64).getLsbD (i % 64) :=
  rfl

theorem bit_map {f : Word → Word} (h : i / 64 < s.words.size) :
    bit { s with words := s.words.map f } i = (f s.words[i / 64]).getLsbD (i % 64) := by
  rw [bit_mk, Array.getElem?_map, Array.getElem?_eq_getElem h, Option.map_some, Option.getD_some]

theorem Fits.word_lt (h : s.Fits n) (hi : i < n) : i / 64 < s.words.size := by
  rw [h.width]
  omega

theorem Fits.ext (hs : s.Fits n) (ht : t.Fits n) (h : ∀ i, s.bit i = t.bit i) : s = t := by
  have hwords : s.words = t.words := by
    refine Array.ext (hs.width.trans ht.width.symm) fun j hj hj' => ?_
    refine BitVec.eq_of_getLsbD_eq fun k hk => ?_
    rw [← bit_word hj hk, ← bit_word hj' hk, h]
  obtain ⟨n₁, ws⟩ := s
  obtain ⟨n₂, ws'⟩ := t
  obtain rfl : n₁ = n₂ := hs.size.trans ht.size.symm
  obtain rfl : ws = ws' := hwords
  rfl

theorem bit_empty : (empty n).bit i = false := by
  rw [bit, empty, Array.getElem?_replicate]
  split <;> simp

theorem empty_fits : (empty n).Fits n where
  size := rfl
  width := Array.size_replicate
  clear i hi := by
    rw [bit_empty] at hi
    cases hi

theorem size_words_trim : (trim s).words.size = s.words.size := by
  rw [trim]
  split
  · rfl
  · exact Array.size_modify

theorem bit_trim (hwidth : s.words.size = (s.size + 63) / 64) :
    (trim s).bit i = (s.bit i && decide (i < s.size)) := by
  by_cases hi : i / 64 < s.words.size
  · rw [trim]
    split
    next hfull =>
      have hlt : i < s.size := by omega
      rw [decide_eq_true hlt, Bool.and_true]
    next hpart =>
      rw [bit_mk, Array.getElem?_modify, Array.getElem?_eq_getElem hi, bit_of_lt hi]
      by_cases hlast : s.words.size - 1 = i / 64
      · have hplace : i % 64 < s.size % 64 ↔ i < s.size := by omega
        rw [if_pos hlast, Option.map_some, Option.getD_some, BitVec.getLsbD_and,
          Word.getLsbD_single_sub_one (Nat.mod_lt _ (by decide)), decide_eq_decide.mpr hplace]
      · have hlt : i < s.size := by omega
        rw [if_neg hlast, decide_eq_true hlt, Bool.and_true, Option.getD_some]
  · have hsize : (trim s).words.size ≤ i / 64 := by
      rw [size_words_trim]
      exact Nat.le_of_not_lt hi
    rw [bit_of_le hsize, bit_of_le (Nat.le_of_not_lt hi), Bool.false_and]

theorem trim_fits (hwidth : s.words.size = (s.size + 63) / 64) : (trim s).Fits s.size where
  size := by
    rw [trim]
    split <;> rfl
  width := size_words_trim.trans hwidth
  clear i hi := by
    rw [bit_trim hwidth, Bool.and_eq_true] at hi
    exact of_decide_eq_true hi.2

theorem full_fits : (full n).Fits n := trim_fits (by simp [empty])

theorem bit_full : (full n).bit i = decide (i < n) := by
  rw [full, bit_trim (by simp [empty])]
  by_cases hi : i < n
  · have hword : i / 64 < (empty n).words.size := empty_fits.word_lt hi
    rw [bit_map hword, BitVec.getLsbD_allOnes, decide_eq_true (Nat.mod_lt i (by decide))]
    rfl
  · simp [empty, hi]

theorem complement_fits (h : s.Fits n) : (complement s).Fits n := by
  obtain rfl := h.size
  exact trim_fits (by simpa using h.width)

theorem bit_complement (h : s.Fits n) : (complement s).bit i = (decide (i < n) && !s.bit i) := by
  obtain rfl := h.size
  rw [complement, bit_trim (by simpa using h.width)]
  by_cases hi : i < s.size
  · have hword : i / 64 < s.words.size := h.word_lt hi
    rw [bit_map hword, BitVec.getLsbD_not, bit_of_lt hword,
      decide_eq_true (Nat.mod_lt i (by decide)), Bool.true_and, Bool.and_comm]
  · simp [hi]

theorem insert_eq (h : s.Fits n) (hx : x < n) :
    ∃ r, s.insert x = .ok r ∧ r.Fits n ∧ ∀ i, r.bit i = (s.bit i || decide (x = i)) := by
  have hword : x / 64 < s.words.size := h.word_lt hx
  let words := s.words.set (x / 64) (s.words[x / 64] ||| Word.single (x % 64))
  have hbit : ∀ i, bit ⟨s.size, words⟩ i = (s.bit i || decide (x = i)) := by
    intro i
    rw [bit_mk, Array.getElem?_set]
    by_cases hxi : x / 64 = i / 64
    · have hplace : decide (i % 64 = x % 64) = decide (x = i) := decide_eq_decide.mpr (by omega)
      have hi : i / 64 < s.words.size := hxi ▸ hword
      rw [if_pos hxi, Option.getD_some, BitVec.getLsbD_or, Word.getLsbD_single, bit_of_lt hi,
        decide_eq_true (Nat.mod_lt i (by decide)), Bool.true_and, hplace]
      simp only [hxi]
    · have hne : x ≠ i := fun heq => hxi (heq ▸ rfl)
      rw [if_neg hxi, decide_eq_false hne, Bool.or_false, bit]
  have hinsert : s.insert x = .ok ⟨s.size, words⟩ := by
    rw [insert, if_pos (h.size ▸ hx), dif_pos hword]
  refine ⟨⟨s.size, words⟩, hinsert, ⟨h.size, ?_, fun i hi => ?_⟩, hbit⟩
  · exact (Array.size_set hword).trans h.width
  · rw [hbit, Bool.or_eq_true, decide_eq_true_eq] at hi
    exact hi.elim (h.clear i) fun heq => heq ▸ hx

theorem insertAll_eq : ∀ {xs : List Nat} {s : WordSet}, s.Fits n → (∀ x ∈ xs, x < n) →
    ∃ r, xs.foldlM insert s = .ok r ∧ r.Fits n ∧ ∀ i, r.bit i = true ↔ s.bit i = true ∨ i ∈ xs
  | [], s, hs, _ => ⟨s, rfl, hs, fun i => by simp⟩
  | x :: xs, s, hs, hxs => by
      obtain ⟨t, hinsert, ht, hbit⟩ := insert_eq hs (hxs x List.mem_cons_self)
      obtain ⟨r, hrest, hr, hbit'⟩ := insertAll_eq ht fun y hy => hxs y (List.mem_cons_of_mem _ hy)
      refine ⟨r, ?_, hr, fun i => ?_⟩
      · rw [List.foldlM_cons, hinsert]
        exact hrest
      · rw [hbit', hbit, Bool.or_eq_true, decide_eq_true_eq, List.mem_cons, or_assoc,
          eq_comm (a := x)]

theorem zip_eq {op : Word → Word → Word} {f : Bool → Bool → Bool} (hs : s.Fits n) (ht : t.Fits n)
    (hop : ∀ a b k, (op a b).getLsbD k = f (a.getLsbD k) (b.getLsbD k))
    (hf : f false false = false) :
    ∃ r, zip op s t = .ok r ∧ r.Fits n ∧ ∀ i, r.bit i = f (s.bit i) (t.bit i) := by
  have hbit : ∀ i, bit ⟨s.size, Array.zipWith op s.words t.words⟩ i = f (s.bit i) (t.bit i) := by
    intro i
    by_cases hi : i / 64 < s.words.size
    · have hi' : i / 64 < t.words.size := by rwa [ht.width, ← hs.width]
      rw [bit_mk, Array.getElem?_zipWith, Array.getElem?_eq_getElem hi,
        Array.getElem?_eq_getElem hi', bit_of_lt hi, bit_of_lt hi']
      exact hop _ _ _
    · have hi' : t.words.size ≤ i / 64 := by
        rw [ht.width, ← hs.width]
        exact Nat.le_of_not_lt hi
      have hout : (Array.zipWith op s.words t.words).size ≤ i / 64 := by
        rw [Array.size_zipWith]
        omega
      rw [bit_of_le (Nat.le_of_not_lt hi), bit_of_le hi', bit_of_le hout, hf]
  refine ⟨_, if_pos (hs.size.trans ht.size.symm), ⟨hs.size, ?_, fun i hi => ?_⟩, hbit⟩
  · rw [Array.size_zipWith, hs.width, ht.width, Nat.min_self]
  · by_contra hout
    have hs' : s.bit i = false := Bool.eq_false_iff.mpr fun h => hout (hs.clear i h)
    have ht' : t.bit i = false := Bool.eq_false_iff.mpr fun h => hout (ht.clear i h)
    rw [hbit, hs', ht', hf] at hi
    cases hi

theorem union_eq (hs : s.Fits n) (ht : t.Fits n) :
    ∃ r, s.union t = .ok r ∧ r.Fits n ∧ ∀ i, r.bit i = (s.bit i || t.bit i) :=
  zip_eq hs ht (fun _ _ _ => BitVec.getLsbD_or) rfl

theorem inter_eq (hs : s.Fits n) (ht : t.Fits n) :
    ∃ r, s.inter t = .ok r ∧ r.Fits n ∧ ∀ i, r.bit i = (s.bit i && t.bit i) :=
  zip_eq hs ht (fun _ _ _ => BitVec.getLsbD_and) rfl

/-! Reading a set. -/

theorem contains_eq (h : s.Fits n) (x : Nat) : s.contains x = .ok (s.bit x) := by
  rw [contains, h.size]
  by_cases hx : x < n
  · have hword := h.word_lt hx
    rw [if_pos hx, Array.getElem?_eq_getElem hword, bit_of_lt hword, ← Word.and_single_eq]
  · rw [if_neg hx, Bool.eq_false_iff.mpr fun hbit => hx (h.clear x hbit)]

theorem isEmpty_iff : s.isEmpty = true ↔ ∀ i, s.bit i = false := by
  rw [isEmpty, Array.all_eq_true]
  simp only [beq_iff_eq]
  constructor
  · intro h i
    by_cases hi : i / 64 < s.words.size
    · rw [bit_of_lt hi, h _ hi, BitVec.getLsbD_zero]
    · exact bit_of_le (Nat.le_of_not_lt hi)
  · intro h j hj
    refine BitVec.eq_of_getLsbD_eq fun k hk => ?_
    rw [← bit_word hj hk, h, BitVec.getLsbD_zero]

/-- The members of a row of words whose first has the number `j`. -/
theorem flatMap_ones (ws : List Word) (j : Nat) :
    ((ws.zipIdx j).flatMap fun entry => (Word.ones entry.1).map (64 * entry.2 + ·)) =
      (List.range' (64 * j) (64 * ws.length)).filter fun i =>
        (ws[i / 64 - j]?.getD 0#64).getLsbD (i % 64) := by
  induction ws generalizing j with
  | nil => rfl
  | cons w ws ih =>
      have hlen : 64 * (w :: ws).length = 64 + 64 * ws.length := by
        rw [List.length_cons]
        omega
      rw [List.zipIdx_cons, List.flatMap_cons, ih, hlen, ← List.range'_append, List.filter_append,
        Word.ones_eq]
      congr 1
      · rw [List.range'_eq_map_range, List.filter_map]
        refine congrArg _ (List.filter_congr fun k hk => ?_)
        have hlt : k < 64 := List.mem_range.mp hk
        have hdiv : (64 * j + k) / 64 - j = 0 := by omega
        have hmod : (64 * j + k) % 64 = k := by omega
        simp [hdiv, hmod]
      · refine List.filter_congr fun i hi => ?_
        obtain ⟨hle, _⟩ := List.mem_range'_1.mp hi
        have hdiv : i / 64 - j = i / 64 - (j + 1) + 1 := by omega
        rw [hdiv, List.getElem?_cons_succ]

/-- Below the last number of a state, no number is cut off. -/
theorem toList_eq (h : s.Fits n) (hn : n ≤ 0x100000000) :
    s.toList = (List.range n).filter s.bit := by
  have hraw : (s.words.toList.zipIdx.flatMap fun entry =>
      (Word.ones entry.1).map (64 * entry.2 + ·)) = (List.range n).filter s.bit := by
    have hbit : (fun i => (s.words.toList[i / 64 - 0]?.getD 0#64).getLsbD (i % 64)) = s.bit :=
      funext fun i => by rw [bit, Nat.sub_zero, Array.getElem?_toList]
    rw [flatMap_ones, hbit, Nat.mul_zero, ← List.range_eq_range', Array.length_toList]
    exact filter_range_of_le (by rw [h.width]; omega) h.clear
  rw [← hraw, toList]
  refine List.flatMap_congr fun entry hentry => List.map_congr_left fun k hk => ?_
  have hmem : 64 * entry.2 + k ∈ (List.range n).filter s.bit := by
    rw [← hraw]
    exact List.mem_flatMap.mpr ⟨entry, hentry, List.mem_map_of_mem hk⟩
  have hlt : 64 * entry.2 + k < n := List.mem_range.mp (List.mem_filter.mp hmem).1
  exact Nat.mod_eq_of_lt (Nat.lt_of_lt_of_le hlt hn)

theorem card_eq (s : WordSet) : s.card = s.toList.length := by
  have key : ∀ (ws : List Word) (count j : Nat),
      ws.foldl (fun count w => count + w.cpop.toNat) count = count +
        ((ws.zipIdx j).flatMap fun entry => (Word.ones entry.1).map (stateAt entry.2)).length := by
    intro ws
    induction ws with
    | nil => exact fun _ _ => rfl
    | cons w ws ih =>
        intro count j
        rw [List.foldl_cons, List.zipIdx_cons, List.flatMap_cons, List.length_append,
          List.length_map, ih _ (j + 1), Word.toNat_cpop_eq, Nat.add_assoc]
  rw [card, ← Array.foldl_toList, key _ _ 0, Nat.zero_add]
  rfl

theorem first_eq (s : WordSet) : s.first = s.toList.head? := by
  have key : ∀ (ws : List Word) (j : Nat),
      (((ws.zipIdx j).find? fun entry => entry.1 != 0#64).map fun entry =>
        stateAt entry.2 entry.1.ctz.toNat) =
      ((ws.zipIdx j).flatMap fun entry => (Word.ones entry.1).map (stateAt entry.2)).head? := by
    intro ws
    induction ws with
    | nil => exact fun _ => rfl
    | cons w ws ih =>
        intro j
        rw [List.zipIdx_cons, List.flatMap_cons, Word.ones]
        by_cases hw : w = 0#64
        · rw [List.find?_cons_of_neg (by simpa using hw), ih (j + 1), if_pos hw]
          rfl
        · rw [List.find?_cons_of_pos (by simpa using hw), if_neg hw]
          rfl
  exact key s.words.toList 0

end WordSet

end Invariance.FiniteState
