import Invariance.Proofs.Agenda.Rebuild
import Mathlib.Data.List.Nodup

/-!
The agenda as a bag of obligations. Scores decide the order alone, so what the search owes is the
list of its obligations without them, in whatever order.
-/

namespace Invariance

def Obligation.bare (ob : Obligation) : Obligation := { ob with score := .zero }

theorem nodup_of_counters {obs : List Obligation} (h : (obs.map (·.counter)).Nodup) : obs.Nodup :=
  (List.pairwise_map.mp h).imp fun hne heq => hne (congrArg Obligation.counter heq)

namespace Agenda

variable {q q' : Agenda}

def waiting (q : Agenda) : List Obligation := q.bySlot.map Obligation.bare

theorem map_counter_waiting (q : Agenda) :
    q.waiting.map (·.counter) = q.bySlot.map (·.counter) := by
  rw [waiting, List.map_map]
  rfl

theorem bare_mem_waiting {ob : Obligation} (h : ob ∈ q.waiting) : ob.bare ∈ q.waiting := by
  obtain ⟨ob', hob', rfl⟩ := List.mem_map.mp h
  exact List.mem_map.mpr ⟨ob', hob', rfl⟩

theorem Valid.nodup_waiting (hq : q.Valid) : (q.waiting.map (·.counter)).Nodup := by
  rw [map_counter_waiting]
  exact hq.nodup_bySlot

theorem Valid.bySlot_perm (hq : q.Valid) {obs : List Obligation}
    (hnodup : (obs.map (·.counter)).Nodup)
    (h : ∀ ob, q.find? ob.counter = some ob ↔ ob ∈ obs) : q.bySlot.Perm obs := by
  refine (List.perm_ext_iff_of_nodup (nodup_of_counters hq.nodup_bySlot)
    (nodup_of_counters hnodup)).mpr fun ob => ?_
  rw [hq.mem_bySlot_iff, h]

theorem Valid.find?_eq_none_iff (hq : q.Valid) {counter : Formula} :
    q.find? counter = none ↔ ∀ ob ∈ q.bySlot, ob.counter ≠ counter := by
  constructor
  · rintro hnone ob hob rfl
    rw [hq.mem_bySlot_iff.mp hob] at hnone
    cases hnone
  · intro h
    cases hfound : q.find? counter with
    | none => rfl
    | some ob =>
        have hc := hq.counter_eq hfound
        exact absurd hc (h ob (hq.mem_bySlot_iff.mpr (hc ▸ hfound)))

theorem Valid.isEmpty_iff_waiting (hq : q.Valid) : q.isEmpty = true ↔ q.waiting = [] := by
  rw [hq.isEmpty_iff, waiting, List.map_eq_nil_iff, List.eq_nil_iff_forall_not_mem]
  constructor
  · intro h ob hob
    rw [hq.mem_bySlot_iff, h] at hob
    cases hob
  · intro h counter
    exact hq.find?_eq_none_iff.mpr fun ob hob => absurd hob (h ob)

theorem Valid.waiting_pos (hq : q.Valid) (h : q.isEmpty = false) : 0 < q.waiting.length := by
  refine List.length_pos_iff.mpr fun hnil => ?_
  rw [hq.isEmpty_iff_waiting.mpr hnil] at h
  cases h

theorem push_waiting (hq : q.Valid) {ob : Obligation}
    (h : ∀ ob' ∈ q.waiting, ob'.counter ≠ ob.counter) :
    ∃ slot q', q.push ob = .ok (slot, q') ∧ q'.Valid ∧
      q'.waiting.Perm (ob.bare :: q.waiting) := by
  have hfresh : ∀ ob' ∈ q.bySlot, ob'.counter ≠ ob.counter := fun ob' hob' =>
    h ob'.bare (List.mem_map.mpr ⟨ob', hob', rfl⟩)
  have hnone := hq.find?_eq_none_iff.mpr hfresh
  obtain ⟨slot, q', hpush, hq', _, hfind⟩ := push_eq hq hnone
  refine ⟨slot, q', hpush, hq', ?_⟩
  have hperm : q'.bySlot.Perm (ob :: q.bySlot) := by
    refine hq'.bySlot_perm ?_ fun ob' => ?_
    · refine List.nodup_cons.mpr ⟨fun hin => ?_, hq.nodup_bySlot⟩
      obtain ⟨ob', hob', hc⟩ := List.mem_map.mp hin
      exact hfresh ob' hob' hc
    · rw [hfind, List.mem_cons, hq.mem_bySlot_iff]
      by_cases hc : ob'.counter = ob.counter
      · rw [if_pos hc, hc, hnone]
        simp [eq_comm]
      · have hne : ob' ≠ ob := fun heq => hc (congrArg Obligation.counter heq)
        simp [hc, hne]
  exact hperm.map Obligation.bare

/-- Pushing only fails where the counter-state is waiting already. -/
theorem push_cases (hq : q.Valid) (ob : Obligation) :
    q.push ob = .error (.alreadyQueued ob.counter) ∨
      (∀ ob' ∈ q.waiting, ob'.counter ≠ ob.counter) ∧ ∃ slot q', q.push ob = .ok (slot, q') ∧
        q'.Valid ∧ q'.waiting.Perm (ob.bare :: q.waiting) := by
  cases hin : q.contains ob.counter with
  | true =>
      rw [push, hin]
      exact Or.inl rfl
  | false =>
      have hfresh : ∀ ob' ∈ q.waiting, ob'.counter ≠ ob.counter := fun ob' hob' => by
        obtain ⟨o, ho, rfl⟩ := List.mem_map.mp hob'
        exact hq.find?_eq_none_iff.mp (hq.contains_eq_false.mp hin) o ho
      exact Or.inr ⟨hfresh, push_waiting hq hfresh⟩

theorem pop_waiting (hq : q.Valid) (h : q.isEmpty = false) :
    ∃ ob q', q.pop = .ok (ob, q') ∧ q'.Valid ∧ q.waiting.Perm (ob.bare :: q'.waiting) ∧
      ∀ ob' ∈ q'.waiting, ob.depth ≤ ob'.depth := by
  obtain ⟨ob, q', hpop, hq', _, hfound, hfirst, hfind⟩ := pop_eq hq h
  have hperm : q.bySlot.Perm (ob :: q'.bySlot) := by
    refine hq.bySlot_perm ?_ fun ob' => ?_
    · refine List.nodup_cons.mpr ⟨fun hin => ?_, hq'.nodup_bySlot⟩
      obtain ⟨ob', hob', hc⟩ := List.mem_map.mp hin
      have hgone := hq'.mem_bySlot_iff.mp hob'
      rw [hfind, if_pos hc] at hgone
      cases hgone
    · rw [List.mem_cons, hq'.mem_bySlot_iff, hfind]
      by_cases hc : ob'.counter = ob.counter
      · rw [if_pos hc, hc, hfound]
        simp [eq_comm]
      · have hne : ob' ≠ ob := fun heq => hc (congrArg Obligation.counter heq)
        simp [hc, hne]
  refine ⟨ob, q', hpop, hq', hperm.map Obligation.bare, fun ob' hob' => ?_⟩
  obtain ⟨ob'', hob'', rfl⟩ := List.mem_map.mp hob'
  have hin := hq'.mem_bySlot_iff.mp hob''
  rw [hfind] at hin
  split at hin
  next => cases hin
  next =>
    have hle := Obligation.depth_le_of_not_precedes (hfirst hin)
    exact hle

theorem bump_waiting (hq : q.Valid) (counter : Formula) (amount : Score) :
    ∃ found q', q.bump counter amount = .ok (found, q') ∧ q'.Valid ∧
      q'.waiting.Perm q.waiting := by
  obtain ⟨q', hbump, hq', _, hfind⟩ := bump_eq hq counter amount
  refine ⟨_, q', hbump, hq', ?_⟩
  refine (List.perm_ext_iff_of_nodup (nodup_of_counters hq'.nodup_waiting)
    (nodup_of_counters hq.nodup_waiting)).mpr fun ob => ?_
  have hmem : ∀ {a : Agenda}, a.Valid →
      (ob ∈ a.waiting ↔ (a.find? ob.counter).map Obligation.bare = some ob) := fun {a} ha => by
    rw [waiting, List.mem_map, Option.map_eq_some_iff]
    constructor
    · rintro ⟨ob', hob', rfl⟩
      exact ⟨ob', ha.mem_bySlot_iff.mp hob', rfl⟩
    · rintro ⟨ob', hob', hbare⟩
      exact ⟨ob', ha.mem_bySlot_iff.mpr (ha.counter_eq hob' ▸ hob'), hbare⟩
  rw [hmem hq', hmem hq, hfind]
  split
  next => rw [Option.map_map]; rfl
  next => rfl

theorem find?_counter_eq_some {obs : List Obligation} (h : (obs.map (·.counter)).Nodup)
    {ob : Obligation} : obs.find? (·.counter = ob.counter) = some ob ↔ ob ∈ obs := by
  constructor
  · exact List.mem_of_find?_eq_some
  · intro hob
    cases hfound : obs.find? (·.counter = ob.counter) with
    | none =>
        have hne := List.find?_eq_none.mp hfound ob hob
        simp at hne
    | some ob' =>
        have hc : ob'.counter = ob.counter := by simpa using List.find?_some hfound
        rw [List.inj_on_of_nodup_map h (List.mem_of_find?_eq_some hfound) hob hc]

theorem relocate_waiting {r : Relocation} {mv : Obligation → Obligation}
    (hmv : ∀ ob, ob.bare ∈ q.waiting → ob.relocate r = some (mv ob))
    (hbare : ∀ ob, (mv ob).bare = mv ob.bare)
    (hnodup : ((q.waiting.map mv).map (·.counter)).Nodup) :
    ∃ lost q', q.relocate r = .ok (lost, q') ∧ q'.Valid ∧
      q'.waiting.Perm (q.waiting.map mv) := by
  have hsurvive : q.bySlot.filterMap (·.relocate r) = q.bySlot.map mv := by
    rw [← List.filterMap_eq_map]
    exact List.filterMap_congr fun ob hob => hmv ob (List.mem_map.mpr ⟨ob, hob, rfl⟩)
  have hwaiting : q.waiting.map mv = (q.bySlot.map mv).map Obligation.bare := by
    rw [waiting, List.map_map, List.map_map]
    exact List.map_congr_left fun ob _ => (hbare ob).symm
  obtain ⟨lost, q', hrelocate, hq', _, hfind⟩ := relocate_eq q r
  refine ⟨lost, q', hrelocate, hq', ?_⟩
  rw [hwaiting, List.map_map] at hnodup
  rw [hwaiting]
  refine (hq'.bySlot_perm hnodup fun ob => ?_).map Obligation.bare
  rw [hfind, hsurvive]
  exact find?_counter_eq_some hnodup

theorem ofList_waiting (hq : q.Valid) :
    ∃ q', ofList q.bySlot = .ok q' ∧ q'.Valid ∧ q'.waiting.Perm q.waiting := by
  obtain ⟨q', hlist, hq', _, hfind⟩ := ofList_eq hq.nodup_bySlot
  refine ⟨q', hlist, hq', ?_⟩
  exact (hq'.bySlot_perm hq.nodup_bySlot fun ob => hfind).map Obligation.bare

end Agenda

end Invariance
