import Invariance.Proofs.Agenda.Operations
import Mathlib.Data.List.Nodup

/-!
Listing the obligations of an agenda, and building agendas from lists. Of several obligations with
one counter-state the first of the list is the one that is found afterwards.
-/

namespace Invariance.Agenda

variable {q : Agenda}

theorem mem_bySlot {ob : Obligation} : ob ∈ q.bySlot ↔ ∃ slot, q.get? slot = some ob := by
  simp [bySlot, List.mem_filterMap, Array.mem_iff_getElem?, get?_eq_some]

theorem Valid.mem_bySlot_iff (hq : q.Valid) {ob : Obligation} :
    ob ∈ q.bySlot ↔ q.find? ob.counter = some ob := by
  rw [mem_bySlot, hq.find?_eq_some]
  simp

theorem mapM_eq_map {α β ε : Type} {f : α → Except ε β} {g : α → β} {l : List α}
    (h : ∀ x ∈ l, f x = .ok (g x)) : l.mapM f = .ok (l.map g) := by
  induction l with
  | nil => rfl
  | cons x l ih =>
      rw [List.mapM_cons, h x List.mem_cons_self, ih fun y hy => h y (List.mem_cons_of_mem _ hy)]
      rfl

theorem Linked.nodup_heap (hq : q.Linked) : q.heap.toList.Nodup := by
  refine List.pairwise_iff_getElem.mpr fun i j hi hj hij heq => ?_
  have hplace : ∀ {k : Nat} (hk : k < q.heap.toList.length),
      q.place[q.heap.toList[k]]? = some k := fun hk =>
    hq.placed (Array.getElem?_eq_some_iff.mpr ⟨by simpa using hk, by simp⟩)
  have hi' := hplace hi
  rw [heq, hplace hj] at hi'
  exact absurd (Option.some.inj hi') (Nat.ne_of_gt hij)

theorem Valid.toList_eq (hq : q.Valid) :
    ∃ obs, q.toList = .ok obs ∧ obs.length = q.size ∧ (obs.map (·.counter)).Nodup ∧
      ∀ {ob}, ob ∈ obs ↔ q.find? ob.counter = some ob := by
  have hheap : ∀ slot ∈ q.heap.toList, q.get? slot = some ((q.get? slot).getD default) :=
    fun slot hslot => by
      obtain ⟨i, hi⟩ := Array.mem_iff_getElem?.mp (Array.mem_toList_iff.mp hslot)
      obtain ⟨ob, hob⟩ := hq.linked.occupied hi
      rw [hob]
      rfl
  refine ⟨_, mapM_eq_map fun slot hslot => occupant_eq (hheap slot hslot), by simp [size], ?_,
    fun {ob} => ?_⟩
  · rw [List.map_map]
    exact hq.linked.nodup_heap.map_on fun slot hslot slot' hslot' hc =>
      hq.slot_unique (hheap slot hslot) (hheap slot' hslot') hc
  · rw [hq.find?_eq_some, List.mem_map]
    constructor
    · rintro ⟨slot, hslot, rfl⟩
      exact ⟨slot, hheap slot hslot, rfl⟩
    · rintro ⟨slot, hslot, _⟩
      exact ⟨slot, Array.mem_toList_iff.mpr (hq.listed hslot), by rw [hslot]; rfl⟩

theorem relocateOne_eq (hq : q.Valid) (r : Relocation) (lost : Nat) (ob : Obligation) :
    ∃ lost' q', relocateOne r (lost, q) ob = .ok (lost', q') ∧ q'.Valid ∧
      lost' + q'.size = lost + q.size + 1 ∧
      ∀ c, q'.find? c =
        (q.find? c).or ([ob].filterMap (·.relocate r) |>.find? (·.counter = c)) := by
  rw [relocateOne]
  cases hob : ob.relocate r with
  | none => exact ⟨lost + 1, q, rfl, hq, by omega, fun c => by simp [hob]⟩
  | some ob' =>
      cases hin : q.contains ob'.counter with
      | true =>
          obtain ⟨ob'', hfound⟩ := hq.contains_iff.mp hin
          refine ⟨lost + 1, q, by simp [hin], hq, by omega, fun c => ?_⟩
          by_cases hc : ob'.counter = c
          · subst hc
            simp [hfound]
          · simp [hob, hc]
      | false =>
          have hnone := hq.contains_eq_false.mp hin
          obtain ⟨slot, q', hpush, hq', hsize, hfind⟩ := push_eq hq hnone
          refine ⟨lost, q', by simp [hin, hpush, bind, Except.bind, pure, Except.pure], hq',
            by omega, fun c => ?_⟩
          rw [hfind]
          by_cases hc : c = ob'.counter
          · subst hc
            simp [hob, hnone]
          · simp [hob, hc, Ne.symm hc]

theorem relocate_eq (q : Agenda) (r : Relocation) :
    ∃ lost q', q.relocate r = .ok (lost, q') ∧ q'.Valid ∧ lost + q'.size = q.bySlot.length ∧
      ∀ c, q'.find? c = (q.bySlot.filterMap (·.relocate r)).find? (·.counter = c) := by
  have key : ∀ (obs : List Obligation) (lost : Nat) (a : Agenda), a.Valid →
      ∃ lost' q', obs.foldlM (relocateOne r) (lost, a) = .ok (lost', q') ∧ q'.Valid ∧
        lost' + q'.size = lost + a.size + obs.length ∧
        ∀ c, q'.find? c =
          (a.find? c).or ((obs.filterMap (·.relocate r)).find? (·.counter = c)) := by
    intro obs
    induction obs with
    | nil => exact fun lost a ha => ⟨lost, a, rfl, ha, rfl, fun c => by simp⟩
    | cons ob obs ih =>
        intro lost a ha
        obtain ⟨lost₁, a₁, hstep, ha₁, hcount₁, hfind₁⟩ := relocateOne_eq ha r lost ob
        obtain ⟨lost', q', hrest, hq', hcount, hfind⟩ := ih lost₁ a₁ ha₁
        refine ⟨lost', q', ?_, hq', by rw [List.length_cons]; omega, fun c => ?_⟩
        · rw [List.foldlM_cons, hstep]
          exact hrest
        · have hsplit : (ob :: obs).filterMap (·.relocate r) =
              [ob].filterMap (·.relocate r) ++ obs.filterMap (·.relocate r) := by
            rw [← List.filterMap_append]
            rfl
          rw [hfind, hfind₁, hsplit, List.find?_append, Option.or_assoc]
  obtain ⟨lost, q', hfold, hq', hcount, hfind⟩ := key q.bySlot 0 empty empty_valid
  refine ⟨lost, q', hfold, hq', ?_, fun c => by rw [hfind, find?_empty, Option.none_or]⟩
  simpa [empty, size] using hcount

theorem ofList_eq {obs : List Obligation} (h : (obs.map (·.counter)).Nodup) :
    ∃ q, ofList obs = .ok q ∧ q.Valid ∧ q.size = obs.length ∧
      ∀ {ob}, q.find? ob.counter = some ob ↔ ob ∈ obs := by
  have key : ∀ (obs : List Obligation) (a : Agenda), a.Valid → (obs.map (·.counter)).Nodup →
      (∀ ob ∈ obs, a.find? ob.counter = none) →
      ∃ q, obs.foldlM (fun q ob => do return (← q.push ob).2) a = .ok q ∧ q.Valid ∧
        q.size = a.size + obs.length ∧
        ∀ {ob}, q.find? ob.counter = some ob ↔ ob ∈ obs ∨ a.find? ob.counter = some ob := by
    intro obs
    induction obs with
    | nil => exact fun a ha _ _ => ⟨a, rfl, ha, rfl, by simp⟩
    | cons ob obs ih =>
        intro a ha hnodup hfresh
        obtain ⟨hnot, hrest⟩ := List.nodup_cons.mp hnodup
        obtain ⟨slot, a₁, hpush, ha₁, hsize₁, hfind₁⟩ :=
          push_eq ha (hfresh ob List.mem_cons_self)
        have hfresh₁ : ∀ ob' ∈ obs, a₁.find? ob'.counter = none := fun ob' hob' => by
          have hne : ob'.counter ≠ ob.counter := fun heq =>
            hnot (List.mem_map.mpr ⟨ob', hob', heq⟩)
          rw [hfind₁, if_neg hne]
          exact hfresh ob' (List.mem_cons_of_mem _ hob')
        obtain ⟨q, hfold, hq, hsize, hfind⟩ := ih a₁ ha₁ hrest hfresh₁
        refine ⟨q, ?_, hq, by rw [hsize, hsize₁, List.length_cons]; omega, fun {ob'} => ?_⟩
        · rw [List.foldlM_cons]
          simp only [hpush, bind, Except.bind, pure, Except.pure] at hfold ⊢
          exact hfold
        · rw [hfind, hfind₁, List.mem_cons]
          by_cases hc : ob'.counter = ob.counter
          · rw [if_pos hc, Option.some_inj, hc, hfresh ob List.mem_cons_self]
            simp only [reduceCtorEq, or_false]
            exact ⟨fun h => h.elim Or.inr fun h => Or.inl h.symm,
              fun h => h.elim (fun h => Or.inr h.symm) Or.inl⟩
          · have hne : ob' ≠ ob := fun heq => hc (congrArg Obligation.counter heq)
            rw [if_neg hc]
            simp [hne]
  obtain ⟨q, hfold, hq, hsize, hfind⟩ := key obs empty empty_valid h fun _ _ => rfl
  refine ⟨q, hfold, hq, by simpa [empty, size] using hsize, fun {ob} => ?_⟩
  rw [hfind, find?_empty]
  simp

theorem Valid.nodup_bySlot (hq : q.Valid) : (q.bySlot.map (·.counter)).Nodup := by
  rw [bySlot, List.map_filterMap, List.Nodup, List.pairwise_filterMap, List.pairwise_iff_getElem]
  intro i j hi hj hij c hc c' hc' heq
  obtain ⟨ob, hob, rfl⟩ := Option.map_eq_some_iff.mp hc
  obtain ⟨ob', hob', rfl⟩ := Option.map_eq_some_iff.mp hc'
  have hget : ∀ {k : Nat} (hk : k < q.slots.toList.length) {o : Obligation},
      id q.slots.toList[k] = some o → q.get? k = some o := fun hk _ ho =>
    get?_eq_some.mpr (Array.getElem?_eq_some_iff.mpr ⟨by simpa using hk, by simpa using ho⟩)
  exact absurd (hq.slot_unique (hget hi hob) (hget hj hob') heq) (Nat.ne_of_lt hij)

end Invariance.Agenda
