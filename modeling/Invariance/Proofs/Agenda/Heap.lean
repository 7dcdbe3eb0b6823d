import Invariance.Agenda
import Invariance.Proofs.Agenda.Urgency

/-!
Sifting. The heap of an agenda is linked when each of its entries is an occupied slot that knows
its place. A sift keeps that, moves no obligation to another slot, and restores the heap order
around the one entry that may be out of order.
-/

namespace Invariance.Agenda

theorem fetch_eq {α : Type} {row : Array α} {i : Nat} {a : α} (h : row[i]? = some a) :
    fetch row i = .ok a := by
  obtain ⟨hi, ha⟩ := Array.getElem?_eq_some_iff.mp h
  rw [fetch, dif_pos hi, ha]

theorem store_eq {α : Type} {row : Array α} {i : Nat} (a : α) (h : i < row.size) :
    store row i a = .ok (row.set i a h) := by
  rw [store, dif_pos h]

structure Linked (q : Agenda) : Prop where
  place_size : q.place.size = q.slots.size
  occupied : ∀ {i slot : Nat}, q.heap[i]? = some slot → ∃ ob, q.get? slot = some ob
  placed : ∀ {i slot : Nat}, q.heap[i]? = some slot → q.place[slot]? = some i

theorem get?_eq_some {q : Agenda} {slot : Nat} {ob : Obligation} :
    q.get? slot = some ob ↔ q.slots[slot]? = some (some ob) := by
  rw [get?]
  cases q.slots[slot]? with
  | none => simp
  | some o => simp

theorem occupant_eq {q : Agenda} {slot : Nat} {ob : Obligation} (h : q.get? slot = some ob) :
    q.occupant slot = .ok ob := by
  rw [occupant, fetch_eq (get?_eq_some.mp h)]
  rfl

theorem lt_of_get? {q : Agenda} {slot : Nat} {ob : Obligation} (h : q.get? slot = some ob) :
    slot < q.slots.size :=
  (Array.getElem?_eq_some_iff.mp (get?_eq_some.mp h)).1

def item (q : Agenda) (i : Nat) : Obligation := ((q.heap[i]?).bind q.get?).getD default

theorem item_eq {q : Agenda} {i : Nat} (slot : Nat) {ob : Obligation} (hi : q.heap[i]? = some slot)
    (hslot : q.get? slot = some ob) : q.item i = ob := by
  simp [item, hi, hslot]

theorem Linked.get?_item {q : Agenda} (hq : q.Linked) {i slot : Nat}
    (hi : q.heap[i]? = some slot) : q.get? slot = some (q.item i) := by
  obtain ⟨ob, hob⟩ := hq.occupied hi
  rw [item_eq slot hi hob, hob]

theorem getElem?_of_lt_size {q : Agenda} {i : Nat} (hi : i < q.size) :
    ∃ slot, q.heap[i]? = some slot :=
  ⟨q.heap[i], Array.getElem?_eq_getElem hi⟩

theorem Linked.entry_eq {q : Agenda} (hq : q.Linked) {i : Nat} (hi : i < q.size) :
    q.entry i = .ok (q.item i) := by
  obtain ⟨slot, hslot⟩ := getElem?_of_lt_size hi
  rw [entry, fetch_eq hslot]
  exact occupant_eq (hq.get?_item hslot)

theorem Linked.higher_eq {q : Agenda} (hq : q.Linked) {i j : Nat} (hi : i < q.size)
    (hj : j < q.size) : q.higher i j = .ok (decide ((q.item i).Precedes (q.item j))) := by
  rw [higher, hq.entry_eq hi, hq.entry_eq hj]
  simp only [bind, Except.bind, pure, Except.pure, Obligation.Precedes]
  congr 1

structure Rearranged (q q' : Agenda) : Prop where
  slots : q'.slots = q.slots
  vacant : q'.vacant = q.vacant
  handles : q'.handles = q.handles
  heap : q'.heap.Perm q.heap
  linked : q'.Linked

namespace Rearranged

variable {q q' q'' : Agenda}

theorem refl (h : q.Linked) : Rearranged q q := ⟨rfl, rfl, rfl, .refl _, h⟩

theorem trans (h : Rearranged q q') (h' : Rearranged q' q'') : Rearranged q q'' :=
  ⟨h'.slots.trans h.slots, h'.vacant.trans h.vacant, h'.handles.trans h.handles,
    h'.heap.trans h.heap, h'.linked⟩

theorem size (h : Rearranged q q') : q'.size = q.size := h.heap.size_eq

theorem get? (h : Rearranged q q') (slot : Nat) : q'.get? slot = q.get? slot := by
  rw [Agenda.get?, h.slots, ← Agenda.get?]

end Rearranged

def exchange (i j k : Nat) : Nat := if k = i then j else if k = j then i else k

theorem exchange_left (i j : Nat) : exchange i j i = j := if_pos rfl

theorem exchange_right (i j : Nat) : exchange i j j = i := by
  rw [exchange]
  split
  next h => exact h
  next => exact if_pos rfl

theorem exchange_of_ne {i j k : Nat} (hi : k ≠ i) (hj : k ≠ j) : exchange i j k = k := by
  rw [exchange, if_neg hi, if_neg hj]

theorem exchange_exchange (i j k : Nat) : exchange i j (exchange i j k) = k := by
  by_cases hi : k = i
  · rw [hi, exchange_left, exchange_right]
  · by_cases hj : k = j
    · rw [hj, exchange_right, exchange_left]
    · rw [exchange_of_ne hi hj, exchange_of_ne hi hj]

theorem getElem?_set_set {α : Type} (row : Array α) {i j : Nat} (a b : α) (hi : i < row.size)
    (hj : j < (row.set i b hi).size) (k : Nat) :
    ((row.set i b hi).set j a hj)[k]? =
      if k = j then some a else if k = i then some b else row[k]? := by
  rw [Array.getElem?_set, Array.getElem?_set]
  simp only [eq_comm]

theorem swap_rearranges {q : Agenda} (hq : q.Linked) {i j : Nat} (hi : i < q.size)
    (hj : j < q.size) :
    ∃ q', q.swap i j = .ok q' ∧ Rearranged q q' ∧
      ∀ k, q'.heap[k]? = q.heap[exchange i j k]? := by
  obtain ⟨a, ha⟩ := getElem?_of_lt_size hi
  obtain ⟨b, hb⟩ := getElem?_of_lt_size hj
  change i < q.heap.size at hi
  change j < q.heap.size at hj
  have hai : q.heap[i] = a := (Array.getElem?_eq_some_iff.mp ha).2
  have hbj : q.heap[j] = b := (Array.getElem?_eq_some_iff.mp hb).2
  have hapl : a < q.place.size := (Array.getElem?_eq_some_iff.mp (hq.placed ha)).1
  have hbpl : b < q.place.size := (Array.getElem?_eq_some_iff.mp (hq.placed hb)).1
  have hheap : ∀ k, ((q.heap.set i b hi).set j a (by simpa using hj))[k]? =
      q.heap[exchange i j k]? := by
    intro k
    rw [getElem?_set_set]
    by_cases hkj : k = j
    · rw [if_pos hkj, hkj, exchange_right, ha]
    · by_cases hki : k = i
      · rw [if_neg hkj, if_pos hki, hki, exchange_left, hb]
      · rw [if_neg hkj, if_neg hki, exchange_of_ne hki hkj]
  refine ⟨{ q with
      heap := (q.heap.set i b hi).set j a (by simpa using hj)
      place := (q.place.set b i hbpl).set a j (by simpa using hapl) }, ?_, ?_, hheap⟩
  · rw [swap, fetch_eq ha, fetch_eq hb]
    simp only [bind, Except.bind, store_eq _ hi, store_eq _ hbpl]
    rw [store_eq _ (by simpa using hj), store_eq _ (by simpa using hapl)]
    rfl
  · refine ⟨rfl, rfl, rfl, ?_, ?_, ?_, ?_⟩
    · subst hai hbj
      exact Array.swap_perm hi hj
    · simpa using hq.place_size
    · intro k slot hk
      exact hq.occupied ((hheap k).symm.trans hk)
    · intro k slot hk
      have hk' : q.heap[exchange i j k]? = some slot := (hheap k).symm.trans hk
      have hpk := hq.placed hk'
      refine (getElem?_set_set q.place j i hbpl (by simpa using hapl) slot).trans ?_
      by_cases hsa : slot = a
      · -- the slot that stood at `i` is found at `j`
        have hex : exchange i j k = i := Option.some.inj (hpk.symm.trans (hsa ▸ hq.placed ha))
        rw [if_pos hsa, ← exchange_exchange i j k, hex, exchange_left]
      · by_cases hsb : slot = b
        · have hex : exchange i j k = j := Option.some.inj (hpk.symm.trans (hsb ▸ hq.placed hb))
          rw [if_neg hsa, if_pos hsb, ← exchange_exchange i j k, hex, exchange_right]
        · have hki : k ≠ i := fun h => by
            rw [h, exchange_left, hb] at hk'
            exact hsb (Option.some.inj hk').symm
          have hkj : k ≠ j := fun h => by
            rw [h, exchange_right, ha] at hk'
            exact hsa (Option.some.inj hk').symm
          rw [if_neg hsa, if_neg hsb, hpk, exchange_of_ne hki hkj]

theorem item_swap {q q' : Agenda} (h : Rearranged q q') {i j : Nat}
    (hheap : ∀ k, q'.heap[k]? = q.heap[exchange i j k]?) (k : Nat) :
    q'.item k = q.item (exchange i j k) := by
  have hget : q'.get? = q.get? := funext h.get?
  rw [item, item, hheap, hget]

def InOrder (q : Agenda) (i : Nat) : Prop := ¬ (q.item i).Precedes (q.item ((i - 1) / 2))

def Ordered (q : Agenda) : Prop := ∀ i, 0 < i → i < q.size → q.InOrder i

def Bridged (q : Agenda) (i : Nat) : Prop :=
  0 < i → ∀ j, 0 < j → j < q.size → (j - 1) / 2 = i →
    ¬ (q.item j).Precedes (q.item ((i - 1) / 2))

/-- Only the entry at `i` may be out of order, with its parent and with its children. -/
structure Loose (q : Agenda) (i : Nat) : Prop where
  inOrder : ∀ j, 0 < j → j < q.size → j ≠ i → (j - 1) / 2 ≠ i → q.InOrder j
  bridged : q.Bridged i

/-- Only the entry at `i` may be out of order, and only with its parent. -/
structure Rising (q : Agenda) (i : Nat) : Prop where
  inOrder : ∀ j, 0 < j → j < q.size → j ≠ i → q.InOrder j
  bridged : q.Bridged i

/-- Only the entry at `i` may be out of order, and only with its children. -/
structure Sinking (q : Agenda) (i : Nat) : Prop where
  inOrder : ∀ j, 0 < j → j < q.size → (j - 1) / 2 ≠ i → q.InOrder j
  bridged : q.Bridged i

theorem Ordered.sinking {q : Agenda} (h : q.Ordered) (i : Nat) : q.Sinking i where
  inOrder := fun j hj0 hj _ => h j hj0 hj
  bridged := fun hi0 j hj0 hj hji => by
    have hi : i < q.size := by omega
    have hj' := h j hj0 hj
    rw [InOrder, hji] at hj'
    exact Obligation.not_precedes_trans hj' (h i hi0 hi)

theorem rising_swap {q q' : Agenda} (hr : Rearranged q q') {i : Nat} (hi0 : 0 < i)
    (hi : i < q.size) (hheap : ∀ k, q'.heap[k]? = q.heap[exchange i ((i - 1) / 2) k]?)
    (hloose : q.Loose i) (hprec : (q.item i).Precedes (q.item ((i - 1) / 2))) :
    q'.Rising ((i - 1) / 2) := by
  have hitem := item_swap hr hheap
  have hpi : (i - 1) / 2 < i := by omega
  have hitem_i : q'.item i = q.item ((i - 1) / 2) := by rw [hitem, exchange_left]
  have hitem_p : q'.item ((i - 1) / 2) = q.item i := by
    rw [hitem, exchange_right]
  have hitem_o : ∀ k, k ≠ i → k ≠ (i - 1) / 2 → q'.item k = q.item k := fun k hki hkp => by
    rw [hitem, exchange_of_ne hki hkp]
  have hsibling : ∀ j, 0 < j → j < q.size → j ≠ i → (j - 1) / 2 = (i - 1) / 2 →
      ¬ (q.item j).Precedes (q.item ((i - 1) / 2)) := fun j hj0 hj hji hjp => by
    have hj' := hloose.inOrder j hj0 hj hji (by omega)
    rwa [InOrder, hjp] at hj'
  constructor
  · intro j hj0 hj hjp
    rw [hr.size] at hj
    rw [InOrder]
    by_cases hji : j = i
    · subst hji
      rw [hitem_i, hitem_p]
      exact hprec.not_precedes
    · rw [hitem_o j hji hjp]
      by_cases hpar : (j - 1) / 2 = i
      · rw [hpar, hitem_i]
        exact hloose.bridged hi0 j hj0 hj hpar
      · by_cases hpar' : (j - 1) / 2 = (i - 1) / 2
        · rw [hpar', hitem_p]
          exact Obligation.not_precedes_trans (hsibling j hj0 hj hji hpar') hprec.not_precedes
        · rw [hitem_o _ hpar hpar']
          exact hloose.inOrder j hj0 hj hji hpar
  · intro hp0 j hj0 hj hjp
    rw [hr.size] at hj
    have hpp : ((i - 1) / 2 - 1) / 2 < (i - 1) / 2 := by omega
    have hup : ¬ (q.item ((i - 1) / 2)).Precedes (q.item (((i - 1) / 2 - 1) / 2)) :=
      hloose.inOrder _ hp0 (by omega) (by omega) (by omega)
    rw [hitem_o (((i - 1) / 2 - 1) / 2) (by omega) (by omega)]
    by_cases hji : j = i
    · rwa [hji, hitem_i]
    · rw [hitem_o j hji (by omega)]
      exact Obligation.not_precedes_trans (hsibling j hj0 hj hji hjp) hup

theorem siftUp_of_rising {bound : Nat} : ∀ {q : Agenda} {i : Nat}, q.Linked → i < q.size →
    i ≤ bound → q.Rising i → ∃ q', siftUp bound q i = .ok q' ∧ Rearranged q q' ∧ q'.Ordered := by
  induction bound with
  | zero =>
      intro q i hq _ hbound hrise
      refine ⟨q, rfl, .refl hq, fun j hj0 hj => hrise.inOrder j hj0 hj (by omega)⟩
  | succ bound ih =>
      intro q i hq hi hbound hrise
      rw [siftUp]
      by_cases hi0 : i = 0
      · rw [if_pos hi0]
        exact ⟨q, rfl, .refl hq, fun j hj0 hj => hrise.inOrder j hj0 hj (by omega)⟩
      · have hp : (i - 1) / 2 < q.size := by omega
        rw [if_neg hi0]
        simp only [hq.higher_eq hi hp, bind, Except.bind]
        by_cases hprec : (q.item i).Precedes (q.item ((i - 1) / 2))
        · obtain ⟨q₁, hswap, hr, hheap⟩ := swap_rearranges hq hi hp
          have hloose : q.Loose i :=
            ⟨fun j hj0 hj hji _ => hrise.inOrder j hj0 hj hji, hrise.bridged⟩
          obtain ⟨q', hq', hr', hord⟩ := ih hr.linked (by rw [hr.size]; exact hp) (by omega)
            (rising_swap hr (by omega) hi hheap hloose hprec)
          simp only [decide_eq_true hprec, if_true, hswap]
          exact ⟨q', hq', hr.trans hr', hord⟩
        · simp only [decide_eq_false hprec, Bool.false_eq_true, if_false]
          refine ⟨q, rfl, .refl hq, fun j hj0 hj => ?_⟩
          by_cases hji : j = i
          · exact hji ▸ hprec
          · exact hrise.inOrder j hj0 hj hji

/-- An entry that is out of order in both directions stays where it is, or else one swap with its
parent leaves nothing for a sift downwards to do. -/
theorem siftUp_of_loose {bound : Nat} {q : Agenda} {i : Nat} (hq : q.Linked) (hi : i < q.size)
    (hbound : i ≤ bound) (hloose : q.Loose i) :
    ∃ q', siftUp bound q i = .ok q' ∧ Rearranged q q' ∧ (q'.Ordered ∨ q' = q ∧ q.Sinking i) := by
  have hstay : (i = 0 ∨ q.InOrder i) → q.Sinking i := fun h =>
    ⟨fun j hj0 hj hji => by
      by_cases hj' : j = i
      · exact hj' ▸ h.resolve_left (by omega)
      · exact hloose.inOrder j hj0 hj hj' hji, hloose.bridged⟩
  cases bound with
  | zero => exact ⟨q, rfl, .refl hq, Or.inr ⟨rfl, hstay (Or.inl (by omega))⟩⟩
  | succ bound =>
      rw [siftUp]
      by_cases hi0 : i = 0
      · rw [if_pos hi0]
        exact ⟨q, rfl, .refl hq, Or.inr ⟨rfl, hstay (Or.inl hi0)⟩⟩
      · have hp : (i - 1) / 2 < q.size := by omega
        have hpbound : (i - 1) / 2 ≤ bound := by omega
        rw [if_neg hi0]
        simp only [hq.higher_eq hi hp, bind, Except.bind]
        by_cases hprec : (q.item i).Precedes (q.item ((i - 1) / 2))
        · obtain ⟨q₁, hswap, hr, hheap⟩ := swap_rearranges hq hi hp
          obtain ⟨q', hq', hr', hord⟩ := siftUp_of_rising hr.linked (by rw [hr.size]; exact hp)
            hpbound (rising_swap hr (by omega) hi hheap hloose hprec)
          simp only [decide_eq_true hprec, if_true, hswap]
          exact ⟨q', hq', hr.trans hr', Or.inl hord⟩
        · simp only [decide_eq_false hprec, Bool.false_eq_true, if_false]
          exact ⟨q, rfl, .refl hq, Or.inr ⟨rfl, hstay (Or.inr hprec)⟩⟩

theorem prefer_eq {q : Agenda} (hq : q.Linked) (child : Nat) {best : Nat}
    (hbest : best < q.size) :
    ∃ b, q.prefer child best = .ok b ∧ (b = child ∨ b = best) ∧ b < q.size ∧
      ¬ (q.item best).Precedes (q.item b) ∧
      (child < q.size → ¬ (q.item child).Precedes (q.item b)) := by
  rw [prefer]
  by_cases hchild : child < q.size
  · rw [if_pos hchild]
    simp only [hq.higher_eq hchild hbest, bind, Except.bind]
    by_cases hprec : (q.item child).Precedes (q.item best)
    · simp only [decide_eq_true hprec, if_true]
      exact ⟨child, rfl, Or.inl rfl, hchild, hprec.not_precedes,
        fun _ => Obligation.not_precedes_self _⟩
    · simp only [decide_eq_false hprec, Bool.false_eq_true, if_false]
      exact ⟨best, rfl, Or.inr rfl, hbest, Obligation.not_precedes_self _, fun _ => hprec⟩
  · rw [if_neg hchild]
    exact ⟨best, rfl, Or.inr rfl, hbest, Obligation.not_precedes_self _,
      fun h => absurd h hchild⟩

theorem sinking_swap {q q' : Agenda} (hr : Rearranged q q') {i best : Nat} (hbest : best < q.size)
    (hchild : (best - 1) / 2 = i) (hbest0 : 0 < best)
    (hheap : ∀ k, q'.heap[k]? = q.heap[exchange i best k]?) (hsink : q.Sinking i)
    (hlead : ¬ (q.item i).Precedes (q.item best))
    (hfirst : ∀ j, 0 < j → j < q.size → (j - 1) / 2 = i → ¬ (q.item j).Precedes (q.item best)) :
    q'.Sinking best := by
  have hitem := item_swap hr hheap
  have hib : i < best := by omega
  have hitem_i : q'.item i = q.item best := by rw [hitem, exchange_left]
  have hitem_b : q'.item best = q.item i := by
    rw [hitem, exchange_right]
  have hitem_o : ∀ k, k ≠ i → k ≠ best → q'.item k = q.item k := fun k hki hkb => by
    rw [hitem, exchange_of_ne hki hkb]
  constructor
  · intro j hj0 hj hjb
    rw [hr.size] at hj
    rw [InOrder]
    by_cases hji : j = i
    · subst hji
      rw [hitem_i, hitem_o _ (by omega) (by omega)]
      exact hsink.bridged hj0 best hbest0 hbest hchild
    · by_cases hj' : j = best
      · rw [hj', hchild, hitem_b, hitem_i]
        exact hlead
      · rw [hitem_o j hji hj']
        by_cases hpar : (j - 1) / 2 = i
        · rw [hpar, hitem_i]
          exact hfirst j hj0 hj hpar
        · rw [hitem_o _ hpar hjb]
          exact hsink.inOrder j hj0 hj hpar
  · intro _ j hj0 hj hjb
    rw [hr.size] at hj
    rw [hchild, hitem_i, hitem_o j (by omega) (by omega)]
    have hj' := hsink.inOrder j hj0 hj (by omega)
    rwa [InOrder, hjb] at hj'

theorem siftDown_of_sinking (bound : Nat) : ∀ {q : Agenda} {i : Nat}, q.Linked → i < q.size →
    q.size ≤ bound + i → q.Sinking i →
    ∃ q', siftDown bound q i = .ok q' ∧ Rearranged q q' ∧ q'.Ordered := by
  induction bound with
  | zero => intro q i _ hi hbound _; omega
  | succ bound ih =>
      intro q i hq hi hbound hsink
      obtain ⟨b, hb, hbeq, hbsize, hbi, hbleft⟩ := prefer_eq hq (2 * i + 1) hi
      obtain ⟨c, hc, hceq, hcsize, hcb, hcright⟩ := prefer_eq hq (2 * i + 2) hbsize
      have hci : ¬ (q.item i).Precedes (q.item c) := Obligation.not_precedes_trans hbi hcb
      have hfirst : ∀ j, 0 < j → j < q.size → (j - 1) / 2 = i →
          ¬ (q.item j).Precedes (q.item c) := fun j hj0 hj hji => by
        rcases (by omega : j = 2 * i + 1 ∨ j = 2 * i + 2) with rfl | rfl
        · exact Obligation.not_precedes_trans (hbleft hj) hcb
        · exact hcright hj
      rw [siftDown]
      simp only [hb, hc, bind, Except.bind]
      by_cases hstop : c = i
      · rw [if_pos hstop]
        refine ⟨q, rfl, .refl hq, fun j hj0 hj => ?_⟩
        by_cases hji : (j - 1) / 2 = i
        · have hj' := hfirst j hj0 hj hji
          rwa [hstop, ← hji] at hj'
        · exact hsink.inOrder j hj0 hj hji
      · rw [if_neg hstop]
        have hc0 : 0 < c ∧ (c - 1) / 2 = i := by omega
        obtain ⟨q₁, hswap, hr, hheap⟩ := swap_rearranges hq hi hcsize
        obtain ⟨q', hq', hr', hord⟩ := ih hr.linked (by rw [hr.size]; exact hcsize)
          (by rw [hr.size]; omega)
          (sinking_swap hr hcsize hc0.2 hc0.1 hheap hsink hci hfirst)
        simp only [hswap]
        exact ⟨q', hq', hr.trans hr', hord⟩

theorem Ordered.root {q : Agenda} (h : q.Ordered) :
    ∀ i, i < q.size → ¬ (q.item i).Precedes (q.item 0) := by
  intro i
  induction i using Nat.strongRecOn with
  | ind i ih =>
      intro hi
      by_cases hi0 : i = 0
      · subst hi0
        exact Obligation.not_precedes_self _
      · exact Obligation.not_precedes_trans (h i (by omega) hi) (ih ((i - 1) / 2) (by omega)
          (by omega))

end Invariance.Agenda
