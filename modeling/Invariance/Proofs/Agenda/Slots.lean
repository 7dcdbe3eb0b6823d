import Invariance.Proofs.Agenda.Table

/-!
What the operations do to the slots. A push takes the slot that was freed last, or a new one
behind all others; a pop frees the slot of what it takes; a bump touches no slot but one; and an
agenda that is built up from nothing has its obligations in the order in which they came.
-/

namespace Invariance.Agenda

variable {q q' : Agenda} {ob : Obligation} {slot : Nat}

/-- Only the heap and the places may differ. -/
structure SameSlots (q q' : Agenda) : Prop where
  slots : q'.slots = q.slots
  vacant : q'.vacant = q.vacant
  handles : q'.handles = q.handles

namespace SameSlots

theorem refl (q : Agenda) : SameSlots q q := ⟨rfl, rfl, rfl⟩

theorem trans {q₁ : Agenda} (h : SameSlots q q₁) (h' : SameSlots q₁ q') : SameSlots q q' :=
  ⟨h'.slots.trans h.slots, h'.vacant.trans h.vacant, h'.handles.trans h.handles⟩

end SameSlots

theorem swap_sameSlots {i j : Nat} (h : q.swap i j = .ok q') : SameSlots q q' := by
  obtain ⟨a, _, h⟩ := bind_eq_ok.mp h
  obtain ⟨b, _, h⟩ := bind_eq_ok.mp h
  obtain ⟨heap₁, _, h⟩ := bind_eq_ok.mp h
  obtain ⟨heap, _, h⟩ := bind_eq_ok.mp h
  obtain ⟨place₁, _, h⟩ := bind_eq_ok.mp h
  obtain ⟨place, _, h⟩ := bind_eq_ok.mp h
  cases h
  exact ⟨rfl, rfl, rfl⟩

theorem siftUp_sameSlots : ∀ {bound : Nat} {q q' : Agenda} {i : Nat},
    siftUp bound q i = .ok q' → SameSlots q q'
  | 0, q, q', i, h => by
      cases h
      exact .refl q
  | bound + 1, q, q', i, h => by
      rw [siftUp] at h
      split at h
      next =>
        cases h
        exact .refl q
      next =>
        obtain ⟨up, _, h⟩ := bind_eq_ok.mp h
        cases up with
        | false =>
            cases h
            exact .refl q
        | true =>
            obtain ⟨q₁, hswap, h⟩ := bind_eq_ok.mp h
            exact (swap_sameSlots hswap).trans (siftUp_sameSlots h)

theorem siftDown_sameSlots : ∀ {bound : Nat} {q q' : Agenda} {i : Nat},
    siftDown bound q i = .ok q' → SameSlots q q'
  | 0, q, q', i, h => by
      cases h
      exact .refl q
  | bound + 1, q, q', i, h => by
      rw [siftDown] at h
      obtain ⟨left, _, h⟩ := bind_eq_ok.mp h
      obtain ⟨best, _, h⟩ := bind_eq_ok.mp h
      split at h
      next =>
        cases h
        exact .refl q
      next =>
        obtain ⟨q₁, hswap, h⟩ := bind_eq_ok.mp h
        exact (swap_sameSlots hswap).trans (siftDown_sameSlots h)

theorem reorder_sameSlots (h : q.reorder slot = .ok q') : SameSlots q q' := by
  obtain ⟨i, _, h⟩ := bind_eq_ok.mp h
  obtain ⟨q₁, hup, h⟩ := bind_eq_ok.mp h
  obtain ⟨j, _, h⟩ := bind_eq_ok.mp h
  exact (siftUp_sameSlots hup).trans (siftDown_sameSlots h)

theorem store_ok {α : Type} {row row' : Array α} {i : Nat} {a : α}
    (h : store row i a = .ok row') : ∃ hi : i < row.size, row' = row.set i a hi := by
  rw [store] at h
  split at h
  next hi =>
    cases h
    exact ⟨hi, rfl⟩
  next => cases h

/-- The slot that `ob` takes: the one freed last, and a new one if none is free. -/
inductive Takes (q : Agenda) (ob : Obligation) (slot : Nat) (q' : Agenda) : Prop
  | fresh (vacant : q.vacant = []) (slot_eq : slot = q.slots.size)
      (slots : q'.slots = q.slots.push (some ob)) (vacant' : q'.vacant = [])
  | again (h : slot < q.slots.size) (vacant : q.vacant = slot :: q'.vacant)
      (slots : q'.slots = q.slots.set slot (some ob) h)

theorem occupy_takes {q₁ : Agenda} (h : q.occupy ob = .ok (slot, q₁)) :
    Takes q ob slot q₁ ∧ q₁.handles = q.handles := by
  rw [occupy] at h
  cases hv : q.vacant with
  | nil =>
      rw [hv] at h
      cases h
      exact ⟨.fresh hv rfl rfl rfl, rfl⟩
  | cons first vacant =>
      rw [hv] at h
      obtain ⟨slots, hstore, h⟩ := bind_eq_ok.mp h
      obtain ⟨hlt, rfl⟩ := store_ok hstore
      cases h
      exact ⟨.again hlt hv rfl, rfl⟩

theorem push_takes (h : q.push ob = .ok (slot, q')) :
    Takes q ob slot q' ∧ q'.handles = q.handles.insert ob.counter slot := by
  rw [push] at h
  split at h
  next => cases h
  next =>
    obtain ⟨⟨slot₁, q₁⟩, hocc, h⟩ := bind_eq_ok.mp h
    obtain ⟨place, _, h⟩ := bind_eq_ok.mp h
    obtain ⟨q₂, hsift, h⟩ := bind_eq_ok.mp h
    cases h
    obtain ⟨htakes, hhandles⟩ := occupy_takes hocc
    have hsame := siftUp_sameSlots hsift
    refine ⟨?_, by rw [hsame.handles, hhandles]⟩
    cases htakes with
    | fresh hv hslot hslots hv' =>
        exact .fresh hv hslot (hsame.slots.trans hslots) (hsame.vacant.trans hv')
    | again hlt hv hslots =>
        exact .again hlt (hv.trans (congrArg _ hsame.vacant.symm)) (hsame.slots.trans hslots)

namespace Takes

variable (h : Takes q ob slot q')

include h

theorem slot_eq : slot = q.vacant.headD q.slots.size := by
  cases h with
  | fresh hv hslot => rw [hv, hslot]; rfl
  | again _ hv => rw [hv]; rfl

theorem vacant_eq : q'.vacant = q.vacant.tail := by
  cases h with
  | fresh hv _ _ hv' => rw [hv, hv']; rfl
  | again _ hv => rw [hv]; rfl

theorem get?_eq (k : Nat) : q'.get? k = if k = slot then some ob else q.get? k := by
  cases h with
  | fresh _ hslot hslots =>
      rw [get?, hslots, Array.getElem?_push, ← hslot, get?]
      split <;> rfl
  | again hlt _ hslots => exact get?_of_set hlt hslots k

end Takes

/-- The slot of `ob` is free again, as the first that a push takes. -/
structure Frees (q : Agenda) (ob : Obligation) (slot : Nat) (q' : Agenda) : Prop where
  held : q.get? slot = some ob
  get?_eq : ∀ k, q'.get? k = if k = slot then none else q.get? k
  vacant : q'.vacant = slot :: q.vacant
  slots_size : q'.slots.size = q.slots.size

theorem occupant_ok (h : q.occupant slot = .ok ob) : q.get? slot = some ob := by
  rw [occupant, fetch] at h
  split at h
  next hlt =>
    simp only [bind, Except.bind] at h
    split at h
    next ob' hob' =>
      cases h
      rw [get?_eq_some, Array.getElem?_eq_getElem hlt, hob']
    next => cases h
  next => cases h

theorem vacate_frees {q₁ : Agenda} {slots : Array (Option Obligation)} (hsame : SameSlots q q₁)
    (hob : q₁.occupant slot = .ok ob) (hstore : store q₁.slots slot none = .ok slots)
    (handles : FormulaMap Nat) :
    Frees q ob slot { q₁ with slots, vacant := slot :: q₁.vacant, handles } := by
  obtain ⟨hlt, rfl⟩ := store_ok hstore
  have hget : ∀ k, q₁.get? k = q.get? k := fun k => by rw [get?, get?, hsame.slots]
  refine ⟨(hget slot).symm.trans (occupant_ok hob),
    fun k => (get?_of_set hlt rfl k).trans (by rw [hget]), ?_, ?_⟩
  · rw [hsame.vacant]
  · rw [Array.size_set, hsame.slots]

theorem pop_frees (h : q.pop = .ok (ob, q')) : ∃ slot, Frees q ob slot q' := by
  rw [pop] at h
  split at h
  next => cases h
  next =>
    obtain ⟨q₁, hswap, h⟩ := bind_eq_ok.mp h
    obtain ⟨slot, _, h⟩ := bind_eq_ok.mp h
    have hsame := swap_sameSlots hswap
    dsimp only at h
    split at h
    next =>
      obtain ⟨q₂, hpure, h⟩ := bind_eq_ok.mp h
      obtain ⟨ob₁, hob, h⟩ := bind_eq_ok.mp h
      obtain ⟨slots, hstore, h⟩ := bind_eq_ok.mp h
      cases hpure
      cases h
      have hsame₁ : SameSlots q { q₁ with heap := q₁.heap.pop } :=
        ⟨hsame.slots, hsame.vacant, hsame.handles⟩
      exact ⟨slot, vacate_frees hsame₁ hob hstore _⟩
    next =>
      obtain ⟨q₂, hsift, h⟩ := bind_eq_ok.mp h
      obtain ⟨ob₁, hob, h⟩ := bind_eq_ok.mp h
      obtain ⟨slots, hstore, h⟩ := bind_eq_ok.mp h
      cases h
      have hsame₂ := siftDown_sameSlots hsift
      exact ⟨slot, vacate_frees ⟨hsame₂.slots.trans hsame.slots, hsame₂.vacant.trans hsame.vacant,
        hsame₂.handles.trans hsame.handles⟩ hob hstore _⟩

/-- Only what waits for `counter` has another score afterwards. -/
theorem bump_slots {counter : Formula} {amount : Score} {found : Bool}
    (h : q.bump counter amount = .ok (found, q')) :
    (∀ k, q'.get? k =
        if q.handle? counter = some k then (q.get? k).map (·.bump amount) else q.get? k) ∧
      q'.vacant = q.vacant ∧ q'.slots.size = q.slots.size := by
  rw [bump] at h
  cases hslot : q.handle? counter with
  | none =>
      rw [hslot] at h
      cases h
      exact ⟨fun k => by simp, rfl, rfl⟩
  | some slot =>
      rw [hslot] at h
      obtain ⟨o, hfetch, h⟩ := bind_eq_ok.mp h
      obtain ⟨slots, hstore, h⟩ := bind_eq_ok.mp h
      obtain ⟨q₁, hreorder, h⟩ := bind_eq_ok.mp h
      cases h
      obtain ⟨hlt, rfl⟩ := store_ok hstore
      have hsame := reorder_sameSlots hreorder
      refine ⟨fun k => ?_, hsame.vacant, by rw [hsame.slots, Array.size_set]⟩
      rw [get?_of_set hlt hsame.slots]
      by_cases hk : k = slot
      · subst hk
        rw [fetch, dif_pos hlt] at hfetch
        cases hfetch
        rw [if_pos rfl, if_pos rfl, get?, Array.getElem?_eq_getElem hlt]
        rfl
      · rw [if_neg hk, if_neg (by simpa using Ne.symm hk)]

/-! Building up. -/

/-- The obligations fill the slots from 0 on, in this order and without a gap. -/
structure Packed (q : Agenda) (obs : List Obligation) : Prop where
  slots : q.slots.toList = obs.map some
  vacant : q.vacant = []

namespace Packed

variable {obs : List Obligation}

theorem empty : Packed empty [] := ⟨rfl, rfl⟩

theorem bySlot (h : q.Packed obs) : q.bySlot = obs := by
  rw [Agenda.bySlot, h.slots, List.filterMap_map]
  exact List.filterMap_some

theorem get?_eq (h : q.Packed obs) (k : Nat) : q.get? k = obs[k]? := by
  rw [get?, ← Array.getElem?_toList, h.slots, List.getElem?_map]
  cases obs[k]? <;> rfl

theorem slots_size (h : q.Packed obs) : q.slots.size = obs.length := by
  rw [← Array.length_toList, h.slots, List.length_map]

theorem push (h : q.Packed obs) (hpush : q.push ob = .ok (slot, q')) :
    q'.Packed (obs ++ [ob]) := by
  cases (push_takes hpush).1 with
  | fresh _ _ hslots hv =>
      refine ⟨?_, hv⟩
      rw [hslots, Array.toList_push, h.slots, List.map_append]
      rfl
  | again _ hv => cases h.vacant.symm.trans hv

theorem of_get? {q : Agenda} (hvacant : q.vacant = []) (hsize : q.slots.size = obs.length)
    (hget : ∀ k, q.get? k = obs[k]?) : q.Packed obs := by
  refine ⟨List.ext_getElem (by simpa using hsize) fun k hk hk' => ?_, hvacant⟩
  have hk₁ : k < q.slots.size := by simpa using hk
  have hk₂ : k < obs.length := by simpa using hk'
  have hslot := hget k
  rw [List.getElem?_eq_getElem hk₂, get?_eq_some, Array.getElem?_eq_getElem hk₁] at hslot
  rw [List.getElem_map, Array.getElem_toList, Option.some.inj hslot]

theorem bump {counter : Formula} {amount : Score} {found : Bool} (h : q.Packed obs)
    (hq : q.Valid) (hbump : q.bump counter amount = .ok (found, q')) :
    q'.Packed (obs.map fun ob => if ob.counter = counter then ob.bump amount else ob) := by
  obtain ⟨hget, hvacant, hsize⟩ := bump_slots hbump
  refine of_get? (hvacant.trans h.vacant) ?_ fun k => ?_
  · rw [hsize, h.slots_size, List.length_map]
  · rw [hget, List.getElem?_map, ← h.get?_eq]
    cases hk : q.get? k with
    | none => simp
    | some ob =>
        have hat : q.handle? counter = some k ↔ ob.counter = counter := by
          rw [hq.handle_eq, hk]
          simp
        simp only [hat, Option.map_some]
        split <;> rfl

theorem foldlM_push : ∀ {more obs : List Obligation} {q q' : Agenda}, q.Packed obs →
    more.foldlM (fun q ob => do return (← q.push ob).2) q = .ok q' → q'.Packed (obs ++ more)
  | [], obs, q, q', h, hfold => by
      cases hfold
      rwa [List.append_nil]
  | ob :: more, obs, q, q', h, hfold => by
      rw [List.foldlM_cons] at hfold
      obtain ⟨q₁, hstep, hfold⟩ := bind_eq_ok.mp hfold
      obtain ⟨⟨slot, q₂⟩, hpush, hret⟩ := bind_eq_ok.mp hstep
      cases hret
      rw [List.append_cons]
      exact (h.push hpush).foldlM_push hfold

end Packed

theorem ofList_packed {obs : List Obligation} (h : ofList obs = .ok q) : q.Packed obs :=
  Packed.empty.foldlM_push h

theorem retain_packed {keep : Obligation → Bool} {lost : Nat}
    (h : q.retain keep = .ok (lost, q')) : q'.Packed (q.bySlot.filter keep) := by
  obtain ⟨kept, hlist, h⟩ := bind_eq_ok.mp h
  cases h
  exact ofList_packed hlist

end Invariance.Agenda
