import Invariance.Proofs.Agenda.Heap

/-!
The agenda as a finite map from counter-states to obligations. On a valid agenda no access fails:
a push adds one entry, a pop takes the entry that comes before all others, and a bump changes the
score of one entry and nothing else.
-/

namespace Invariance.Agenda

def find? (q : Agenda) (counter : Formula) : Option Obligation := (q.handle? counter).bind q.get?

structure Valid (q : Agenda) : Prop where
  linked : q.Linked
  ordered : q.Ordered
  listed : ∀ {slot : Nat} {ob : Obligation}, q.get? slot = some ob → slot ∈ q.heap
  mem_vacant : ∀ slot : Nat, slot ∈ q.vacant ↔ slot < q.slots.size ∧ q.get? slot = none
  vacant_nodup : q.vacant.Nodup
  handle_eq : ∀ {counter : Formula} {slot : Nat},
    q.handle? counter = some slot ↔ ∃ ob, q.get? slot = some ob ∧ ob.counter = counter

theorem empty_valid : empty.Valid where
  linked := ⟨rfl, by simp [empty], by simp [empty]⟩
  ordered := fun i _ hi => absurd hi (Nat.not_lt_zero i)
  listed := by simp [empty, get?]
  mem_vacant := by simp [empty]
  vacant_nodup := .nil
  handle_eq := by simp [empty, handle?, get?, FormulaMap.get?_empty]

theorem find?_empty (counter : Formula) : empty.find? counter = none := rfl

namespace Valid

variable {q : Agenda} {counter : Formula} {ob : Obligation}

theorem find?_eq_some (hq : q.Valid) :
    q.find? counter = some ob ↔ ∃ slot, q.get? slot = some ob ∧ ob.counter = counter := by
  rw [find?, Option.bind_eq_some_iff]
  constructor
  · rintro ⟨slot, hslot, hget⟩
    obtain ⟨ob', hget', hcounter⟩ := hq.handle_eq.mp hslot
    obtain rfl : ob = ob' := Option.some.inj (hget.symm.trans hget')
    exact ⟨slot, hget, hcounter⟩
  · rintro ⟨slot, hget, hcounter⟩
    exact ⟨slot, hq.handle_eq.mpr ⟨ob, hget, hcounter⟩, hget⟩

theorem counter_eq (hq : q.Valid) (h : q.find? counter = some ob) : ob.counter = counter := by
  obtain ⟨_, _, hcounter⟩ := hq.find?_eq_some.mp h
  exact hcounter

theorem contains_iff (hq : q.Valid) :
    q.contains counter = true ↔ ∃ ob, q.find? counter = some ob := by
  rw [contains, FormulaMap.contains_iff]
  constructor
  · rintro ⟨slot, hslot⟩
    obtain ⟨ob, hget, hcounter⟩ := hq.handle_eq.mp hslot
    exact ⟨ob, hq.find?_eq_some.mpr ⟨slot, hget, hcounter⟩⟩
  · rintro ⟨ob, h⟩
    obtain ⟨slot, hget, hcounter⟩ := hq.find?_eq_some.mp h
    exact ⟨slot, hq.handle_eq.mpr ⟨ob, hget, hcounter⟩⟩

theorem contains_eq_false (hq : q.Valid) : q.contains counter = false ↔ q.find? counter = none := by
  rw [← Bool.not_eq_true, hq.contains_iff]
  cases q.find? counter <;> simp

theorem slot_unique (hq : q.Valid) {slot slot' : Nat} {ob' : Obligation}
    (h : q.get? slot = some ob) (h' : q.get? slot' = some ob') (hc : ob.counter = ob'.counter) :
    slot = slot' :=
  Option.some.inj ((hq.handle_eq.mpr ⟨ob, h, hc⟩).symm.trans (hq.handle_eq.mpr ⟨ob', h', rfl⟩))

theorem item_mem (hq : q.Valid) {i : Nat} (hi : i < q.size) :
    q.find? (q.item i).counter = some (q.item i) := by
  obtain ⟨slot, hslot⟩ := getElem?_of_lt_size hi
  exact hq.find?_eq_some.mpr ⟨slot, hq.linked.get?_item hslot, rfl⟩

theorem exists_item (hq : q.Valid) (h : q.find? counter = some ob) :
    ∃ i, i < q.size ∧ q.item i = ob := by
  obtain ⟨slot, hget, _⟩ := hq.find?_eq_some.mp h
  obtain ⟨i, hi, hslot⟩ := Array.mem_iff_getElem.mp (hq.listed hget)
  exact ⟨i, hi, item_eq _ (Array.getElem?_eq_some_iff.mpr ⟨hi, hslot⟩) hget⟩

theorem isEmpty_iff (hq : q.Valid) : q.isEmpty = true ↔ ∀ counter, q.find? counter = none := by
  have hsize : q.isEmpty = true ↔ q.size = 0 := by simp [isEmpty, size]
  rw [hsize]
  constructor
  · intro hzero counter
    cases h : q.find? counter with
    | none => rfl
    | some ob =>
        obtain ⟨i, hi, _⟩ := hq.exists_item h
        omega
  · intro h
    refine Nat.eq_zero_of_not_pos fun hpos => ?_
    have hroot := hq.item_mem hpos
    rw [h] at hroot
    cases hroot

end Valid

theorem find?_of_update {q q' : Agenda} (hq : q.Valid) (hq' : q'.Valid) {slot : Nat}
    {ob : Obligation} (hget : ∀ k, q'.get? k = if k = slot then some ob else q.get? k)
    (hslot : ∀ {ob'}, q.get? slot = some ob' → ob'.counter = ob.counter) (c : Formula) :
    q'.find? c = if c = ob.counter then some ob else q.find? c := by
  have hself : q'.get? slot = some ob := (hget slot).trans (if_pos rfl)
  by_cases hc : c = ob.counter
  · rw [if_pos hc]
    exact hq'.find?_eq_some.mpr ⟨slot, hself, hc.symm⟩
  · rw [if_neg hc]
    refine Option.ext fun ob' => ?_
    rw [hq'.find?_eq_some, hq.find?_eq_some]
    constructor
    · rintro ⟨k, hk, rfl⟩
      rw [hget] at hk
      split at hk
      next =>
        obtain rfl := Option.some.inj hk
        exact absurd rfl hc
      next => exact ⟨k, hk, rfl⟩
    · rintro ⟨k, hk, rfl⟩
      have hks : k ≠ slot := fun heq => hc (hslot (heq ▸ hk))
      exact ⟨k, (hget k).trans ((if_neg hks).trans hk), rfl⟩

theorem get?_of_set {q q' : Agenda} {slot : Nat} {o : Option Obligation} (h : slot < q.slots.size)
    (hq' : q'.slots = q.slots.set slot o h) (k : Nat) :
    q'.get? k = if k = slot then o else q.get? k := by
  rw [get?, get?, hq', Array.getElem?_set]
  by_cases hk : k = slot
  · rw [if_pos hk.symm, if_pos hk]
    rfl
  · rw [if_neg (Ne.symm hk), if_neg hk]

/-! Pushing. -/

structure Occupied (q : Agenda) (ob : Obligation) (slot : Nat) (q₁ : Agenda) : Prop where
  free : q.get? slot = none
  get : ∀ k, q₁.get? k = if k = slot then some ob else q.get? k
  heap : q₁.heap = q.heap
  handles : q₁.handles = q.handles
  place_size : q₁.place.size = q₁.slots.size
  placed : ∀ {k i : Nat}, q.place[k]? = some i → q₁.place[k]? = some i
  mem_vacant : ∀ k : Nat, k ∈ q₁.vacant ↔ k < q₁.slots.size ∧ q₁.get? k = none
  vacant_nodup : q₁.vacant.Nodup

theorem occupy_eq {q : Agenda} (hq : q.Valid) (ob : Obligation) :
    ∃ slot q₁, q.occupy ob = .ok (slot, q₁) ∧ Occupied q ob slot q₁ := by
  rw [occupy]
  cases hv : q.vacant with
  | nil =>
      have hnone : ∀ k, q.slots.size ≤ k → q.get? k = none := fun k hk => by
        rw [get?, Array.getElem?_eq_none hk]
        rfl
      have hget : ∀ k, ({ q with
          slots := q.slots.push (some ob)
          vacant := []
          place := q.place.push 0 } : Agenda).get? k =
          if k = q.slots.size then some ob else q.get? k := fun k => by
        rw [get?, get?, Array.getElem?_push]
        split <;> rfl
      refine ⟨q.slots.size, _, rfl, hnone _ (Nat.le_refl _), hget, rfl, rfl, ?_, ?_, ?_, ?_⟩
      · simpa using hq.linked.place_size
      · intro k i hk
        have hlt := (Array.getElem?_eq_some_iff.mp hk).1
        rw [Array.getElem?_push, if_neg (Nat.ne_of_lt hlt)]
        exact hk
      · intro k
        have hmem := hq.mem_vacant k
        rw [hget]
        simp only [hv, List.not_mem_nil, false_iff, Array.size_push] at hmem ⊢
        rintro ⟨hk, hk'⟩
        split at hk'
        next => cases hk'
        next hne => exact hmem ⟨by omega, hk'⟩
      · exact .nil
  | cons slot vacant =>
      have hmem := hq.mem_vacant slot
      have hnodup := hq.vacant_nodup
      rw [hv] at hmem hnodup
      obtain ⟨hslot, hnone⟩ := hmem.mp List.mem_cons_self
      obtain ⟨hnot, hrest⟩ := List.nodup_cons.mp hnodup
      have hget : ∀ k, ({ q with
          slots := q.slots.set slot (some ob) hslot, vacant } : Agenda).get? k =
          if k = slot then some ob else q.get? k := get?_of_set hslot rfl
      refine ⟨slot, { q with slots := q.slots.set slot (some ob) hslot, vacant }, ?_, hnone, hget,
        rfl, rfl, ?_, fun hk => hk, ?_, hrest⟩
      · simp only [store_eq _ hslot, bind, Except.bind]
        rfl
      · simpa using hq.linked.place_size
      · intro k
        have hk := hq.mem_vacant k
        rw [hv, List.mem_cons] at hk
        rw [hget]
        simp only [Array.size_set]
        by_cases hks : k = slot
        · subst hks
          simp [hnot]
        · simpa [hks] using hk

theorem append_linked {q : Agenda} (hq : q.Valid) (q₁ : Agenda) {slot : Nat} {ob : Obligation}
    (hnone : q.get? slot = none) (hget : ∀ k, q₁.get? k = if k = slot then some ob else q.get? k)
    (hsize : q₁.place.size = q₁.slots.size) (hplace : q₁.place[slot]? = some q.size)
    (hkept : ∀ {k i : Nat}, k ≠ slot → q.place[k]? = some i → q₁.place[k]? = some i)
    (hheap : q₁.heap = q.heap.push slot) :
    q₁.Linked ∧ q₁.Rising q.size := by
  have hfresh : ∀ {k slot' : Nat}, q.heap[k]? = some slot' → slot' ≠ slot := fun hk heq => by
    obtain ⟨ob', hob'⟩ := hq.linked.occupied hk
    rw [heq, hnone] at hob'
    cases hob'
  have hheap' : ∀ k, q₁.heap[k]? = if k = q.size then some slot else q.heap[k]? := fun k =>
    hheap ▸ Array.getElem?_push
  have hlinked : q₁.Linked := by
    refine ⟨hsize, ?_, ?_⟩
    · intro k slot' hk
      rw [hheap'] at hk
      split at hk
      next =>
        obtain rfl := Option.some.inj hk
        exact ⟨ob, (hget slot).trans (if_pos rfl)⟩
      next =>
        obtain ⟨ob', hob'⟩ := hq.linked.occupied hk
        exact ⟨ob', by rw [hget, if_neg (hfresh hk), hob']⟩
    · intro k slot' hk
      rw [hheap'] at hk
      split at hk
      next hkq =>
        obtain rfl := Option.some.inj hk
        rw [hplace, hkq]
      next => exact hkept (hfresh hk) (hq.linked.placed hk)
  refine ⟨hlinked, fun j hj0 hj hjq => ?_, fun _ j _ hj hjq => ?_⟩
  · have hitem : ∀ k, k < q.size → q₁.item k = q.item k := fun k hk => by
      obtain ⟨slot', hslot'⟩ := getElem?_of_lt_size hk
      refine item_eq slot' ?_ ?_
      · rw [hheap', if_neg (Nat.ne_of_lt hk), hslot']
      · rw [hget, if_neg (hfresh hslot'), hq.linked.get?_item hslot']
    have hj' : j < q.size + 1 := by simpa [size, hheap] using hj
    rw [InOrder, hitem j (by omega), hitem _ (by omega)]
    exact hq.ordered j hj0 (by omega)
  · have hj' : j < q.size + 1 := by simpa [size, hheap] using hj
    omega

theorem enlist_valid {q q₁ : Agenda} (hq : q.Valid) {slot : Nat} {ob : Obligation}
    (h : q.find? ob.counter = none) (hnone : q.get? slot = none)
    (hget : ∀ k, q₁.get? k = if k = slot then some ob else q.get? k) (hlinked : q₁.Linked)
    (hordered : q₁.Ordered) (hmem : ∀ k, k ∈ q₁.heap ↔ k ∈ q.heap ∨ k = slot)
    (hvacant : ∀ k, k ∈ q₁.vacant ↔ k < q₁.slots.size ∧ q₁.get? k = none)
    (hnodup : q₁.vacant.Nodup) (hhandles : q₁.handles = q.handles) :
    { q₁ with handles := q₁.handles.insert ob.counter slot }.Valid := by
  refine ⟨⟨hlinked.place_size, hlinked.occupied, hlinked.placed⟩, hordered, ?_, hvacant, hnodup, ?_⟩
  · intro k ob' hk
    refine (hmem k).mpr ?_
    by_cases hks : k = slot
    · exact Or.inr hks
    · exact Or.inl (hq.listed (((hget k).trans (if_neg hks)).symm.trans hk))
  · intro c k
    change (q₁.handles.insert ob.counter slot).get? c = some k ↔
      ∃ ob', q₁.get? k = some ob' ∧ ob'.counter = c
    rw [FormulaMap.get?_insert, hhandles, hget]
    by_cases hc : c = ob.counter
    · subst hc
      rw [if_pos rfl]
      constructor
      · rintro hk
        obtain rfl := Option.some.inj hk
        exact ⟨ob, if_pos rfl, rfl⟩
      · rintro ⟨ob', hk, hc'⟩
        by_cases hks : k = slot
        · rw [hks]
        · rw [if_neg hks] at hk
          have hfound := hq.find?_eq_some.mpr ⟨k, hk, hc'⟩
          rw [h] at hfound
          cases hfound
    · rw [if_neg hc]
      refine hq.handle_eq.trans ?_
      by_cases hks : k = slot
      · subst hks
        rw [hnone, if_pos rfl]
        simp [Ne.symm hc]
      · rw [if_neg hks]

theorem push_eq {q : Agenda} (hq : q.Valid) {ob : Obligation} (h : q.find? ob.counter = none) :
    ∃ slot q', q.push ob = .ok (slot, q') ∧ q'.Valid ∧ q'.size = q.size + 1 ∧
      ∀ c, q'.find? c = if c = ob.counter then some ob else q.find? c := by
  obtain ⟨slot, q₁, hocc, h₁⟩ := occupy_eq hq ob
  have hslot : slot < q₁.place.size := by
    rw [h₁.place_size]
    exact lt_of_get? ((h₁.get slot).trans (if_pos rfl))
  obtain ⟨hlinked, hrise⟩ := append_linked hq { q₁ with
    heap := q.heap.push slot, place := q₁.place.set slot q.size hslot } h₁.free h₁.get
    (by simpa using h₁.place_size) (by simp)
    (fun hk hi => (Array.getElem?_set_ne hslot (Ne.symm hk)).trans (h₁.placed hi)) rfl
  obtain ⟨q₂, hsift, hr, hord⟩ := siftUp_of_rising hlinked
    (by simp [size]) (Nat.le_refl q.size) hrise
  have hget₂ : ∀ k, q₂.get? k = if k = slot then some ob else q.get? k := fun k =>
    (hr.get? k).trans (h₁.get k)
  have hvalid : { q₂ with handles := q₂.handles.insert ob.counter slot }.Valid := by
    refine enlist_valid hq h h₁.free hget₂ hr.linked hord (fun k => ?_) (fun k => ?_) ?_
      (hr.handles.trans h₁.handles)
    · rw [hr.heap.mem_iff, Array.mem_push]
    · rw [hr.vacant, hr.slots, hr.get?]
      exact h₁.mem_vacant k
    · rw [hr.vacant]
      exact h₁.vacant_nodup
  have hsift' : siftUp q₁.size { q₁ with
      heap := q₁.heap.push slot, place := q₁.place.set slot q₁.size hslot } q₁.size = .ok q₂ := by
    have hq₁ : q₁.size = q.size := congrArg Array.size h₁.heap
    rw [hq₁, h₁.heap]
    exact hsift
  refine ⟨slot, _, ?_, hvalid, hr.size.trans (Array.size_push ..), ?_⟩
  · rw [push, hq.contains_eq_false.mpr h]
    simp only [Bool.false_eq_true, if_false, hocc, bind, Except.bind, store_eq _ hslot, hsift']
    rfl
  · exact find?_of_update hq hvalid hget₂ fun hk => by
      rw [h₁.free] at hk
      cases hk

/-! Popping. -/

theorem behead_linked {q q₁ : Agenda} (hq : q.Valid) (hr : Rearranged q q₁)
    (hheap : ∀ k, q₁.heap[k]? = q.heap[exchange 0 (q.size - 1) k]?) :
    { q₁ with heap := q₁.heap.pop }.Linked ∧ { q₁ with heap := q₁.heap.pop }.Sinking 0 := by
  have hpop : ∀ {k slot : Nat}, q₁.heap.pop[k]? = some slot → q₁.heap[k]? = some slot := by
    intro k slot hk
    rw [Array.getElem?_pop] at hk
    split at hk
    · exact hk
    · cases hk
  refine ⟨⟨hr.linked.place_size, fun hk => hr.linked.occupied (hpop hk),
    fun hk => hr.linked.placed (hpop hk)⟩, fun j hj0 hj hj1 => ?_, fun h => absurd h (by omega)⟩
  have hj' : j < q.size - 1 := by
    have := hr.size
    simp only [size, Array.size_pop] at hj this ⊢
    omega
  have hitem : ∀ k, 0 < k → k < q.size - 1 →
      ({ q₁ with heap := q₁.heap.pop } : Agenda).item k = q.item k := fun k hk0 hk => by
    obtain ⟨slot, hslot⟩ := getElem?_of_lt_size (q := q) (show k < q.size by omega)
    refine item_eq slot ?_ ((hr.get? slot).trans (hq.linked.get?_item hslot))
    have hk₁ : k < q₁.heap.size - 1 := by
      have := hr.size
      simp only [size] at this hk
      omega
    rw [Array.getElem?_pop, if_pos hk₁, hheap, exchange_of_ne (by omega) (by omega), hslot]
  rw [InOrder, hitem j hj0 hj', hitem _ (by omega) (by omega)]
  exact hq.ordered j hj0 (by omega)

theorem behead_eq {q₂ : Agenda} (hlinked : q₂.Linked) (hsink : q₂.Sinking 0) :
    ∃ q₃, Rearranged q₂ q₃ ∧ q₃.Ordered ∧
      (q₂.isEmpty = true ∧ q₃ = q₂ ∨ q₂.isEmpty = false ∧ siftDown q₂.size q₂ 0 = .ok q₃) := by
  cases hempty : q₂.isEmpty with
  | true =>
      refine ⟨q₂, .refl hlinked, fun i _ hi => ?_, Or.inl ⟨rfl, rfl⟩⟩
      rw [isEmpty, Array.isEmpty_iff_size_eq_zero] at hempty
      exact absurd hi (by simp [size, hempty])
  | false =>
      have hpos : 0 < q₂.size := by
        rw [isEmpty, Array.isEmpty_eq_false_iff] at hempty
        exact Array.size_pos_iff.mpr hempty
      obtain ⟨q₃, hsift, hr, hord⟩ := siftDown_of_sinking _ hlinked hpos (Nat.le_refl _) hsink
      exact ⟨q₃, hr, hord, Or.inr ⟨rfl, hsift⟩⟩

theorem mem_behead {q q₁ : Agenda} (hr : Rearranged q q₁) {slot : Nat}
    (hlast : q₁.heap[q.size - 1]? = some slot) (k : Nat) :
    k ∈ q₁.heap.pop ↔ k ∈ q.heap ∧ k ≠ slot := by
  have hsize : q₁.size = q.size := hr.size
  have hsplit : q₁.heap = q₁.heap.pop.push slot := by
    have hback : q₁.heap.back? = some slot := by
      rw [Array.back?_eq_getElem?]
      exact (congrArg (q₁.heap[· - 1]?) hsize).trans hlast
    obtain ⟨row, hrow⟩ := Array.back?_eq_some_iff.mp hback
    rw [hrow, Array.pop_push]
  have hnot : slot ∉ q₁.heap.pop := fun hin => by
    obtain ⟨i, hi, hval⟩ := Array.mem_iff_getElem.mp hin
    have hi₂ : q₁.heap[i]? = some slot := by
      have h₂ := Array.getElem?_eq_some_iff.mpr ⟨hi, hval⟩
      rwa [Array.getElem?_pop, if_pos (by simpa using hi)] at h₂
    have heq : i = q.size - 1 :=
      Option.some.inj ((hr.linked.placed hi₂).symm.trans (hr.linked.placed hlast))
    simp only [size, Array.size_pop] at hsize hi heq
    omega
  rw [← hr.heap.mem_iff, hsplit, Array.pop_push, Array.mem_push]
  constructor
  · exact fun hk => ⟨Or.inl hk, fun heq => hnot (heq ▸ hk)⟩
  · exact fun hk => hk.1.resolve_right hk.2

def vacate (q : Agenda) (slot : Nat) (h : slot < q.slots.size) (counter : Formula) : Agenda :=
  { q with
    slots := q.slots.set slot none h
    vacant := slot :: q.vacant
    handles := q.handles.erase counter }

theorem get?_vacate (q : Agenda) {slot : Nat} (h : slot < q.slots.size) (counter : Formula)
    (k : Nat) : (q.vacate slot h counter).get? k = if k = slot then none else q.get? k :=
  get?_of_set h rfl k

theorem vacate_valid {q q₁ : Agenda} (hq : q.Valid) {slot : Nat} {ob : Obligation}
    (hob : q.get? slot = some ob) (hlinked : q₁.Linked) (hordered : q₁.Ordered)
    (hslots : q₁.slots = q.slots) (hvacant : q₁.vacant = q.vacant)
    (hhandles : q₁.handles = q.handles) (hmem : ∀ k, k ∈ q₁.heap ↔ k ∈ q.heap ∧ k ≠ slot)
    (h : slot < q₁.slots.size) : (q₁.vacate slot h ob.counter).Valid := by
  have hget : ∀ k, (q₁.vacate slot h ob.counter).get? k = if k = slot then none else q.get? k :=
    fun k => by rw [get?_vacate, get?, get?, hslots]
  have hkept : ∀ k, k ≠ slot → (q₁.vacate slot h ob.counter).get? k = q₁.get? k := fun k hk => by
    rw [get?_vacate, if_neg hk]
  have hitem : ∀ i, i < q₁.size → (q₁.vacate slot h ob.counter).item i = q₁.item i := fun i hi => by
    obtain ⟨k, hk⟩ := getElem?_of_lt_size hi
    have hne := ((hmem k).mp (Array.mem_of_getElem? hk)).2
    exact item_eq k hk ((hkept k hne).trans (hlinked.get?_item hk))
  refine ⟨⟨?_, ?_, hlinked.placed⟩, ?_, ?_, ?_, ?_, ?_⟩
  · simpa [vacate] using hlinked.place_size
  · intro i k hi
    have hne := ((hmem k).mp (Array.mem_of_getElem? hi)).2
    rw [hkept k hne]
    exact hlinked.occupied hi
  · intro i hi0 hi
    rw [InOrder, hitem i hi, hitem _ (Nat.lt_of_le_of_lt (by omega) hi)]
    exact hordered i hi0 hi
  · intro k ob' hk
    rw [hget] at hk
    split at hk
    next => cases hk
    next hne => exact (hmem k).mpr ⟨hq.listed hk, hne⟩
  · intro k
    have hk := hq.mem_vacant k
    rw [hget]
    simp only [vacate, List.mem_cons, Array.size_set, hvacant, hslots]
    by_cases hks : k = slot
    · subst hks
      simpa [hslots] using h
    · simpa [hks] using hk
  · have hnot : slot ∉ q.vacant := fun hin => by
      have hnone := ((hq.mem_vacant _).mp hin).2
      rw [hob] at hnone
      cases hnone
    simp only [vacate, hvacant]
    exact List.nodup_cons.mpr ⟨hnot, hq.vacant_nodup⟩
  · intro c k
    change (q₁.handles.erase ob.counter).get? c = some k ↔ _
    rw [FormulaMap.get?_erase, hhandles, hget]
    by_cases hc : c = ob.counter
    · subst hc
      rw [if_pos rfl]
      constructor
      · exact fun hk => by cases hk
      · rintro ⟨ob', hk, hc'⟩
        split at hk
        next => cases hk
        next hne => exact absurd (hq.slot_unique hk hob hc') hne
    · rw [if_neg hc]
      refine hq.handle_eq.trans ?_
      by_cases hks : k = slot
      · subst hks
        rw [hob, if_pos rfl]
        simp [Ne.symm hc]
      · rw [if_neg hks]

theorem find?_of_removal {q q' : Agenda} (hq : q.Valid) (hq' : q'.Valid) {slot : Nat}
    {ob : Obligation} (hob : q.get? slot = some ob)
    (hget : ∀ k, q'.get? k = if k = slot then none else q.get? k) (c : Formula) :
    q'.find? c = if c = ob.counter then none else q.find? c := by
  refine Option.ext fun ob' => ?_
  rw [hq'.find?_eq_some]
  by_cases hc : c = ob.counter
  · rw [if_pos hc]
    constructor
    · rintro ⟨k, hk, hc'⟩
      rw [hget] at hk
      split at hk
      next => cases hk
      next hne => exact absurd (hq.slot_unique hk hob (hc'.trans hc)) hne
    · exact fun hk => by cases hk
  · rw [if_neg hc, hq.find?_eq_some]
    constructor
    · rintro ⟨k, hk, hc'⟩
      rw [hget] at hk
      split at hk
      next => cases hk
      next => exact ⟨k, hk, hc'⟩
    · rintro ⟨k, hk, hc'⟩
      have hne : k ≠ slot := fun heq => by
        subst heq
        obtain rfl := Option.some.inj (hk.symm.trans hob)
        exact hc hc'.symm
      exact ⟨k, (hget k).trans ((if_neg hne).trans hk), hc'⟩

theorem pop_eq {q : Agenda} (hq : q.Valid) (h : q.isEmpty = false) :
    ∃ ob q', q.pop = .ok (ob, q') ∧ q'.Valid ∧ q'.size + 1 = q.size ∧
      q.find? ob.counter = some ob ∧
      (∀ {c ob'}, q.find? c = some ob' → ¬ ob'.Precedes ob) ∧
      ∀ c, q'.find? c = if c = ob.counter then none else q.find? c := by
  have hpos : 0 < q.size := by
    rw [isEmpty, Array.isEmpty_eq_false_iff] at h
    exact Array.size_pos_iff.mpr h
  have hlast : q.size - 1 < q.size := by omega
  obtain ⟨slot, hslot⟩ := getElem?_of_lt_size hpos
  obtain ⟨q₁, hswap, hr₁, hheap₁⟩ := swap_rearranges hq.linked hpos hlast
  obtain ⟨hlinked₂, hsink₂⟩ := behead_linked hq hr₁ hheap₁
  obtain ⟨q₃, hr₃, hord, hsift⟩ := behead_eq hlinked₂ hsink₂
  have hob : q.get? slot = some (q.item 0) := hq.linked.get?_item hslot
  have hlast₁ : q₁.heap[q.size - 1]? = some slot := by rw [hheap₁, exchange_right, hslot]
  have hmem : ∀ k, k ∈ q₃.heap ↔ k ∈ q.heap ∧ k ≠ slot := fun k => by
    rw [hr₃.heap.mem_iff]
    exact mem_behead hr₁ hlast₁ k
  have hget : ∀ k, q₃.get? k = q.get? k := fun k => (hr₃.get? k).trans (hr₁.get? k)
  have hob₃ : q₃.get? slot = some (q.item 0) := (hget slot).trans hob
  have hslot₃ : slot < q₃.slots.size := lt_of_get? hob₃
  have hvalid : (q₃.vacate slot hslot₃ (q.item 0).counter).Valid :=
    vacate_valid hq hob hr₃.linked hord (hr₃.slots.trans hr₁.slots) (hr₃.vacant.trans hr₁.vacant)
      (hr₃.handles.trans hr₁.handles) hmem hslot₃
  have hget' := fun k => (get?_vacate q₃ hslot₃ (q.item 0).counter k).trans
    (congrArg (if k = slot then none else ·) (hget k))
  refine ⟨q.item 0, _, ?_, hvalid, ?_, hq.item_mem hpos, ?_, find?_of_removal hq hvalid hob hget'⟩
  · rw [pop, h]
    simp only [Bool.false_eq_true, if_false, bind, Except.bind, hswap, fetch_eq hlast₁]
    rcases hsift with ⟨hempty, rfl⟩ | ⟨hempty, hsift⟩
    · simp only [hempty, if_true, pure, Except.pure, occupant_eq hob₃, store_eq _ hslot₃]
      rfl
    · simp only [hempty, Bool.false_eq_true, if_false, hsift, occupant_eq hob₃, store_eq _ hslot₃]
      rfl
  · have h₁ := hr₁.size
    have h₃ := hr₃.size
    simp only [size, Array.size_pop, vacate] at h₁ h₃ hpos ⊢
    omega
  · intro c ob' hc
    obtain ⟨i, hi, rfl⟩ := hq.exists_item hc
    exact hq.ordered.root i hi

/-! Bumping. -/

theorem rescore_loose {q : Agenda} (hq : q.Valid) (q₁ : Agenda) {slot i : Nat} {ob : Obligation}
    (hi : q.heap[i]? = some slot) (hheap : q₁.heap = q.heap) (hplace : q₁.place = q.place)
    (hslots : q₁.slots.size = q.slots.size)
    (hget : ∀ k, q₁.get? k = if k = slot then some ob else q.get? k) :
    q₁.Linked ∧ q₁.Loose i := by
  have hsize : q₁.size = q.size := congrArg Array.size hheap
  have hitem : ∀ k, k < q.size → k ≠ i → q₁.item k = q.item k := fun k hk hki => by
    obtain ⟨slot', hslot'⟩ := getElem?_of_lt_size hk
    have hne : slot' ≠ slot := fun heq => hki (Option.some.inj
      ((hq.linked.placed hslot').symm.trans (heq ▸ hq.linked.placed hi)))
    refine item_eq slot' (hheap ▸ hslot') ?_
    rw [hget, if_neg hne, hq.linked.get?_item hslot']
  have hilt : i < q.size := (Array.getElem?_eq_some_iff.mp hi).1
  refine ⟨⟨?_, ?_, ?_⟩, ?_, ?_⟩
  · rw [hplace, hslots]
    exact hq.linked.place_size
  · intro k slot' hk
    rw [hheap] at hk
    rw [hget]
    split
    next => exact ⟨ob, rfl⟩
    next => exact hq.linked.occupied hk
  · intro k slot' hk
    rw [hheap] at hk
    rw [hplace]
    exact hq.linked.placed hk
  · intro j hj0 hj hji hjp
    rw [hsize] at hj
    rw [InOrder, hitem j hj hji, hitem _ (by omega) hjp]
    exact hq.ordered j hj0 hj
  · intro hi0 j hj0 hj hjp
    rw [hsize] at hj
    rw [hitem j hj (by omega), hitem _ (by omega) (by omega)]
    have hj' := hq.ordered j hj0 hj
    rw [InOrder, hjp] at hj'
    exact Obligation.not_precedes_trans hj' (hq.ordered i hi0 hilt)

theorem reorder_eq {q : Agenda} {i slot : Nat} (hlinked : q.Linked) (hi : q.heap[i]? = some slot)
    (hloose : q.Loose i) : ∃ q', q.reorder slot = .ok q' ∧ Rearranged q q' ∧ q'.Ordered := by
  have hilt : i < q.size := (Array.getElem?_eq_some_iff.mp hi).1
  obtain ⟨q₁, hup, hr₁, hcase⟩ := siftUp_of_loose hlinked hilt (Nat.le_refl i) hloose
  obtain ⟨k, hk⟩ : ∃ k, q₁.heap[k]? = some slot :=
    Array.mem_iff_getElem?.mp (hr₁.heap.mem_iff.mpr (Array.mem_of_getElem? hi))
  have hsink : q₁.Sinking k := by
    rcases hcase with hord | ⟨rfl, hsink⟩
    · exact hord.sinking k
    · obtain rfl : k = i :=
        Option.some.inj ((hr₁.linked.placed hk).symm.trans (hlinked.placed hi))
      exact hsink
  have hklt : k < q₁.size := (Array.getElem?_eq_some_iff.mp hk).1
  obtain ⟨q₂, hdown, hr₂, hord⟩ :=
    siftDown_of_sinking q₁.size hr₁.linked hklt (by omega) hsink
  refine ⟨q₂, ?_, hr₁.trans hr₂, hord⟩
  rw [reorder, fetch_eq (hlinked.placed hi)]
  simp only [bind, Except.bind, hup, fetch_eq (hr₁.linked.placed hk), hdown]

theorem rescore_valid {q q' : Agenda} (hq : q.Valid) {slot : Nat} {ob ob' : Obligation}
    (hob : q.get? slot = some ob) (hc : ob'.counter = ob.counter) (h : slot < q.slots.size)
    (hr : Rearranged { q with slots := q.slots.set slot (some ob') h } q') (hord : q'.Ordered) :
    q'.Valid := by
  have hget : ∀ k, q'.get? k = if k = slot then some ob' else q.get? k :=
    fun k => (hr.get? k).trans (get?_of_set h rfl k)
  refine ⟨hr.linked, hord, ?_, ?_, ?_, ?_⟩
  · intro k o hk
    refine hr.heap.mem_iff.mpr ?_
    rw [hget] at hk
    split at hk
    next hks =>
      subst hks
      exact hq.listed hob
    next => exact hq.listed hk
  · intro k
    have hk := hq.mem_vacant k
    rw [hr.vacant, hr.slots, hget]
    simp only [Array.size_set]
    by_cases hks : k = slot
    · subst hks
      rw [hob] at hk
      simpa using hk
    · simpa [hks] using hk
  · rw [hr.vacant]
    exact hq.vacant_nodup
  · intro c k
    rw [handle?, hr.handles, ← handle?, hget]
    refine hq.handle_eq.trans ?_
    by_cases hks : k = slot
    · subst hks
      rw [hob, if_pos rfl]
      simp [hc]
    · rw [if_neg hks]

theorem bump_eq {q : Agenda} (hq : q.Valid) (counter : Formula) (amount : Score) :
    ∃ q', q.bump counter amount = .ok (q.contains counter, q') ∧ q'.Valid ∧ q'.size = q.size ∧
      ∀ c, q'.find? c =
        if c = counter then (q.find? c).map (·.bump amount) else q.find? c := by
  rw [bump]
  cases hslot : q.handle? counter with
  | none =>
      have hnone : q.find? counter = none := by rw [find?, hslot]; rfl
      refine ⟨q, ?_, hq, rfl, fun c => ?_⟩
      · rw [hq.contains_eq_false.mpr hnone]
      · split
        next hc => rw [hc, hnone]; rfl
        next => rfl
  | some slot =>
      obtain ⟨ob, hob, rfl⟩ := hq.handle_eq.mp hslot
      obtain ⟨i, hi⟩ := Array.mem_iff_getElem?.mp (hq.listed hob)
      have hlt := lt_of_get? hob
      obtain ⟨hlinked, hloose⟩ := rescore_loose hq
        { q with slots := q.slots.set slot (some (ob.bump amount)) hlt } hi rfl rfl (by simp)
        (get?_of_set hlt rfl)
      obtain ⟨q', hreorder, hr, hord⟩ := reorder_eq hlinked hi hloose
      have hvalid : q'.Valid := rescore_valid hq hob (by rfl) hlt hr hord
      have hget : ∀ k, q'.get? k = if k = slot then some (ob.bump amount) else q.get? k :=
        fun k => (hr.get? k).trans (get?_of_set hlt rfl k)
      have hfound : q.find? ob.counter = some ob := hq.find?_eq_some.mpr ⟨slot, hob, rfl⟩
      refine ⟨q', ?_, hvalid, hr.size, fun c => ?_⟩
      · rw [hq.contains_iff.mpr ⟨ob, hfound⟩]
        simp only [bind, Except.bind, fetch_eq (get?_eq_some.mp hob), store_eq _ hlt,
          Option.map_some]
        rw [hreorder]
        rfl
      · rw [find?_of_update hq hvalid hget fun hk => by
          rw [Option.some.inj (hk.symm.trans hob)]
          rfl]
        change (if c = ob.counter then _ else _) = _
        split
        next hc => rw [hc, hfound]; rfl
        next => rfl

end Invariance.Agenda
