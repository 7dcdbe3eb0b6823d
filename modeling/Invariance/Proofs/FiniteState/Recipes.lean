import Invariance.Proofs.FiniteState.Words
import Invariance.Proofs.Twins.Running
import Mathlib.Data.Finset.Max

/-!
Sets that are put together from operations. A recipe over `n` states describes a finite set, and the
words that it comes to represent that set, whichever way they are looked at. A set kept as a number
has the same bits, so the two ways to keep sets answer alike, and refuse alike.
-/

namespace Invariance.FiniteState

namespace WordSet

variable {s : WordSet} {n : Nat}

/-- `s` is the set `m` of states below `n`, whichever way it is looked at. -/
structure Represents (s : WordSet) (n : Nat) (m : Finset Nat) : Prop where
  size : s.size = n
  clear : ∀ i, n ≤ i → s.bit i = false
  contains : ∀ x, s.contains x = .ok (decide (x ∈ m))
  card : s.card = m.card
  isEmpty : s.isEmpty = true ↔ m = ∅
  first : ∀ x, s.first = some x ↔ IsLeast (m : Set Nat) x
  ascending : s.toList.Pairwise (· < ·)
  mem_toList : ∀ x, x ∈ s.toList ↔ x ∈ m

theorem Fits.represents {m : Finset Nat} (h : s.Fits n) (hn : n ≤ 0x100000000)
    (hm : ∀ i, s.bit i = true ↔ i ∈ m) : s.Represents n m := by
  have hlist := toList_eq h hn
  have hmem : ∀ x, x ∈ s.toList ↔ x ∈ m := fun x => by
    rw [hlist, List.mem_filter, List.mem_range, ← hm]
    exact ⟨fun hx => hx.2, fun hx => ⟨h.clear x hx, hx⟩⟩
  have hascending : s.toList.Pairwise (· < ·) := by
    rw [hlist]
    exact List.pairwise_lt_range.filter _
  have hfinset : s.toList.toFinset = m := Finset.ext fun x => by rw [List.mem_toFinset, hmem]
  refine ⟨h.size, fun i hi => ?_, fun x => ?_, ?_, ?_, fun x => ?_, hascending, hmem⟩
  · exact Bool.eq_false_iff.mpr fun hbit => Nat.not_lt_of_le hi (h.clear i hbit)
  · rw [contains_eq h, Bool.eq_iff_iff.mpr ((hm x).trans decide_eq_true_iff.symm)]
  · rw [card_eq, ← hfinset, List.toFinset_card_of_nodup (hascending.imp Nat.ne_of_lt)]
  · rw [isEmpty_iff, Finset.eq_empty_iff_forall_notMem]
    exact forall_congr' fun i => by rw [← hm, Bool.not_eq_true]
  · rw [first_eq]
    cases hs : s.toList with
    | nil =>
        have hempty : ∀ y, y ∉ m := fun y hy => by simpa [hs] using (hmem y).mpr hy
        exact iff_of_false nofun fun hx => hempty x hx.1
    | cons y ys =>
        rw [hs] at hmem hascending
        have hleast : IsLeast (m : Set Nat) y := by
          refine ⟨(hmem y).mp List.mem_cons_self, fun z hz => ?_⟩
          rcases List.mem_cons.mp ((hmem z).mpr hz) with rfl | hz
          · exact Nat.le_refl _
          · exact Nat.le_of_lt ((List.pairwise_cons.mp hascending).1 z hz)
        rw [List.head?_cons, Option.some_inj]
        exact ⟨fun heq => heq ▸ hleast, fun hx => hleast.unique hx⟩

/-! Words and numbers. -/

/-- The same set, once in words and once as a number. -/
structure Matches (s : WordSet) (t : StateSet) : Prop where
  fits : s.Fits t.size
  same : ∀ i, s.bit i = t.contains i

theorem Fits.exists_matches (h : s.Fits n) : ∃ t : StateSet, s.Matches t ∧ t.size = n := by
  have hbit : ∀ i, (Nat.ofBits fun j : Fin n => s.bit j).testBit i = s.bit i := fun i => by
    by_cases hi : i < n
    · rw [Nat.testBit_ofBits_lt _ i hi]
    · rw [Nat.testBit_ofBits_ge _ i (Nat.le_of_not_lt hi),
        Bool.eq_false_iff.mpr fun hbit => hi (h.clear i hbit)]
  let t : StateSet := ⟨n, Nat.ofBits fun j : Fin n => s.bit j, fun i hi =>
    h.clear i ((hbit i).symm.trans hi)⟩
  exact ⟨t, ⟨h, fun i => (hbit i).symm⟩, rfl⟩

namespace Matches

variable {s' : WordSet} {t t' : StateSet}

theorem contains_eq (h : s.Matches t) (x : Nat) : s.contains x = .ok (t.contains x) := by
  rw [WordSet.contains_eq h.fits, h.same]

theorem isEmpty_eq (h : s.Matches t) : s.isEmpty = t.isEmpty :=
  Bool.eq_iff_iff.mpr (isEmpty_iff.trans (by simp only [h.same, StateSet.isEmpty_iff]))

theorem toList_eq (h : s.Matches t) (hn : t.size ≤ 0x100000000) : s.toList = t.toList := by
  rw [WordSet.toList_eq h.fits hn, StateSet.toList_eq_filter, funext h.same]

theorem empty (n : Nat) : (WordSet.empty n).Matches (.empty n) :=
  ⟨empty_fits, fun i => by rw [bit_empty, StateSet.contains_empty]⟩

theorem full (n : Nat) : (WordSet.full n).Matches (.full n) :=
  ⟨full_fits, fun i => by rw [bit_full, StateSet.contains_full]⟩

theorem complement (h : s.Matches t) : s.complement.Matches t.complement :=
  ⟨complement_fits h.fits, fun i => by
    rw [bit_complement h.fits, StateSet.contains_complement, h.same]⟩

theorem insert (h : s.Matches t) (x : Nat) : Echoes Matches (s.insert x) (t.insert x) := by
  rw [StateSet.insert]
  split
  next hx =>
    obtain ⟨r, hr, hfits, hbit⟩ := insert_eq h.fits hx
    rw [hr]
    exact ⟨hfits, fun i => by rw [hbit, StateSet.contains_add, h.same]⟩
  next hx =>
    rw [WordSet.insert, h.fits.size, if_neg hx]
    exact rfl

theorem zip (h : s.Matches t) (h' : s'.Matches t') {op : Word → Word → Word}
    {f : Bool → Bool → Bool} {r' : Except Violation StateSet}
    (hop : ∀ a b k, (op a b).getLsbD k = f (a.getLsbD k) (b.getLsbD k))
    (hf : f false false = false)
    (hok : t.size = t'.size → ∃ r, r' = .ok r ∧ r.size = t.size ∧
      ∀ i, r.contains i = f (t.contains i) (t'.contains i))
    (herror : t.size ≠ t'.size → r' = .error (.differentSizes t.size t'.size)) :
    Echoes Matches (WordSet.zip op s s') r' := by
  by_cases hsize : t.size = t'.size
  · obtain ⟨r, rfl, hrsize, hc⟩ := hok hsize
    obtain ⟨w, hw, hfits, hbit⟩ := zip_eq h.fits (hsize ▸ h'.fits) hop hf
    rw [hw]
    exact ⟨hrsize ▸ hfits, fun i => by rw [hbit, hc, h.same, h'.same]⟩
  · rw [herror hsize, WordSet.zip, h.fits.size, h'.fits.size, if_neg hsize]
    exact rfl

theorem union (h : s.Matches t) (h' : s'.Matches t') :
    Echoes Matches (s.union s') (t.union t') :=
  h.zip h' (fun _ _ _ => BitVec.getLsbD_or) rfl
    (fun hsize => by
      obtain ⟨r, hr, hrsize, _⟩ := StateSet.union_eq hsize
      exact ⟨r, hr, hrsize, StateSet.contains_union hr⟩)
    fun hsize => by rw [StateSet.union, dif_neg hsize]

theorem inter (h : s.Matches t) (h' : s'.Matches t') :
    Echoes Matches (s.inter s') (t.inter t') :=
  h.zip h' (fun _ _ _ => BitVec.getLsbD_and) rfl
    (fun hsize => by
      obtain ⟨r, hr, hrsize, _⟩ := StateSet.inter_eq hsize
      exact ⟨r, hr, hrsize, StateSet.contains_inter hr⟩)
    fun hsize => by rw [StateSet.inter, if_neg hsize]

theorem inter_eq (h : s.Matches t) (h' : s'.Matches t') (hsize : t.size = t'.size) :
    ∃ r q, s.inter s' = .ok r ∧ t.inter t' = .ok q ∧ r.Matches q ∧ q.size = t.size := by
  obtain ⟨r, hr, _, _⟩ := WordSet.inter_eq h.fits (hsize ▸ h'.fits)
  obtain ⟨q, hq, hqsize, _⟩ := StateSet.inter_eq hsize
  obtain ⟨q', hq', hmatches⟩ := (h.inter h').of_ok hr
  obtain rfl := Except.ok.inj (hq.symm.trans hq')
  exact ⟨r, q, hr, hq, hmatches, hqsize⟩

end Matches

end WordSet

namespace Recipe

variable {n : Nat} {r r' : Recipe}

/-- The set that a recipe over `n` states describes. -/
def members (n : Nat) : Recipe → Finset Nat
  | .empty _ => ∅
  | .full _ => Finset.range n
  | .states _ xs => xs.toFinset
  | .insert r x => Insert.insert x (r.members n)
  | .union r r' => r.members n ∪ r'.members n
  | .inter r r' => r.members n ∩ r'.members n
  | .complement r => Finset.range n \ r.members n

/-- All sets are over `n` states, and only such states are put into them. -/
def Over (n : Nat) : Recipe → Prop
  | .empty m => m = n
  | .full m => m = n
  | .states m xs => m = n ∧ ∀ x ∈ xs, x < n
  | .insert r x => r.Over n ∧ x < n
  | .union r r' => r.Over n ∧ r'.Over n
  | .inter r r' => r.Over n ∧ r'.Over n
  | .complement r => r.Over n

theorem build_eq (hn : n ≤ 0x100000000) (hr : r.Over n) :
    ∃ s, r.build WordSet.storage = .ok s ∧ s.Fits n ∧ ∀ i, s.bit i = true ↔ i ∈ r.members n := by
  have hroom : StateSet.allocatable n = .ok () := StateSet.allocatable_of_lt (by omega)
  induction r with
  | empty m =>
      obtain rfl : m = n := hr
      refine ⟨.empty m, ?_, WordSet.empty_fits, fun i => by simp [WordSet.bit_empty, members]⟩
      simp only [build, hroom]
      rfl
  | full m =>
      obtain rfl : m = n := hr
      refine ⟨.full m, ?_, WordSet.full_fits, fun i => by simp [WordSet.bit_full, members]⟩
      simp only [build, hroom]
      rfl
  | states m xs =>
      obtain ⟨rfl, hxs⟩ : m = n ∧ ∀ x ∈ xs, x < n := hr
      obtain ⟨t, ht, hfits, hbit⟩ := WordSet.insertAll_eq WordSet.empty_fits hxs
      refine ⟨t, ?_, hfits, fun i => by simp [hbit, WordSet.bit_empty, members]⟩
      simp only [build, hroom, bind, Except.bind]
      exact ht
  | insert r x ih =>
      obtain ⟨s, hs, hfits, hbit⟩ := ih hr.1
      obtain ⟨t, ht, htfits, htbit⟩ := WordSet.insert_eq hfits hr.2
      refine ⟨t, ?_, htfits, fun i => ?_⟩
      · simp only [build, hs, bind, Except.bind]
        exact ht
      · rw [htbit, Bool.or_eq_true, hbit, decide_eq_true_eq, members, Finset.mem_insert, or_comm,
          eq_comm (a := x)]
  | union r r' ih ih' =>
      obtain ⟨s, hs, hfits, hbit⟩ := ih hr.1
      obtain ⟨s', hs', hfits', hbit'⟩ := ih' hr.2
      obtain ⟨t, ht, htfits, htbit⟩ := WordSet.union_eq hfits hfits'
      refine ⟨t, ?_, htfits, fun i => ?_⟩
      · simp only [build, hs, hs', bind, Except.bind]
        exact ht
      · rw [htbit, Bool.or_eq_true, hbit, hbit', members, Finset.mem_union]
  | inter r r' ih ih' =>
      obtain ⟨s, hs, hfits, hbit⟩ := ih hr.1
      obtain ⟨s', hs', hfits', hbit'⟩ := ih' hr.2
      obtain ⟨t, ht, htfits, htbit⟩ := WordSet.inter_eq hfits hfits'
      refine ⟨t, ?_, htfits, fun i => ?_⟩
      · simp only [build, hs, hs', bind, Except.bind]
        exact ht
      · rw [htbit, Bool.and_eq_true, hbit, hbit', members, Finset.mem_inter]
  | complement r ih =>
      obtain ⟨s, hs, hfits, hbit⟩ := ih hr
      refine ⟨s.complement, ?_, WordSet.complement_fits hfits, fun i => ?_⟩
      · simp only [build, hs, bind, Except.bind]
        rfl
      · rw [WordSet.bit_complement hfits, Bool.and_eq_true, decide_eq_true_eq, Bool.not_eq_true',
          members, Finset.mem_sdiff, Finset.mem_range, ← hbit, Bool.not_eq_true]

theorem build_represents (hn : n ≤ 0x100000000) (hr : r.Over n) :
    ∃ s, r.build WordSet.storage = .ok s ∧ s.Represents n (r.members n) ∧
      ∀ {r' : Recipe}, r'.Over n → ∃ s', r'.build WordSet.storage = .ok s' ∧
        (s = s' ↔ r.members n = r'.members n) := by
  obtain ⟨s, hs, hfits, hbit⟩ := build_eq hn hr
  refine ⟨s, hs, hfits.represents hn hbit, fun {r'} hr' => ?_⟩
  obtain ⟨s', hs', hfits', hbit'⟩ := build_eq hn hr'
  refine ⟨s', hs', fun heq => ?_, fun heq => ?_⟩
  · subst heq
    exact Finset.ext fun i => (hbit i).symm.trans (hbit' i)
  · refine hfits.ext hfits' fun i => Bool.eq_iff_iff.mpr ?_
    rw [hbit, hbit', heq]

/-- The words of 70 states, the second of them partly past the last state. -/
def straddling : Recipe := .complement (.insert (.union (.states 70 [1, 65]) (.empty 70)) 64)

theorem straddling_represents : 70 ≤ 0x100000000 ∧ straddling.Over 70 ∧ (Recipe.full 70).Over 70 ∧
    ∃ s, straddling.build WordSet.storage = .ok s ∧ s.Represents 70 (straddling.members 70) ∧
      ∃ s', (Recipe.full 70).build WordSet.storage = .ok s' ∧ s ≠ s' := by
  have hover : straddling.Over 70 := by simp [straddling, Over]
  have hfull : (Recipe.full 70).Over 70 := rfl
  obtain ⟨s, hs, hrepresents, hother⟩ := build_represents (by decide) hover
  obtain ⟨s', hs', hiff⟩ := hother hfull
  refine ⟨by decide, hover, hfull, s, hs, hrepresents, s', hs', fun heq => ?_⟩
  have hone : 1 ∈ straddling.members 70 ↔ 1 ∈ (Recipe.full 70).members 70 := by rw [hiff.mp heq]
  simp [straddling, members] at hone

theorem build_matches (r : Recipe) :
    Echoes WordSet.Matches (r.build WordSet.storage) (r.build StateSet.storage) := by
  have hroom : ∀ n, Echoes Eq (StateSet.allocatable n) (StateSet.allocatable n) :=
    fun n => .of_eq rfl
  induction r with
  | empty n => exact (hroom n).bind fun _ _ _ => .empty n
  | full n => exact (hroom n).bind fun _ _ _ => .full n
  | states n xs =>
      refine (hroom n).bind fun _ _ _ => ?_
      have key : ∀ {s t}, WordSet.Matches s t →
          Echoes WordSet.Matches (xs.foldlM WordSet.insert s) (xs.foldlM StateSet.insert t) := by
        induction xs with
        | nil => exact fun h => h
        | cons x xs ih =>
            intro s t h
            rw [List.foldlM_cons, List.foldlM_cons]
            exact (h.insert x).bind fun _ _ => ih
      exact key (.empty n)
  | insert r x ih => exact ih.bind fun _ _ h => h.insert x
  | union r r' ih ih' => exact ih.bind fun _ _ h => ih'.bind fun _ _ h' => h.union h'
  | inter r r' ih ih' => exact ih.bind fun _ _ h => ih'.bind fun _ _ h' => h.inter h'
  | complement r ih => exact ih.bind fun _ _ h => h.complement

end Recipe

end Invariance.FiniteState
