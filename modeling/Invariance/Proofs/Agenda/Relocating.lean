import Invariance.Proofs.Agenda.Slots

/-!
Relocation. New numbers may bring two obligations on one counter-state; then the one in the lower
slot stays. What stays is pushed again in the old order, so it fills the slots from 0 on, and the
heap is ordered by the new numbers.
-/

namespace Invariance

/-- An obligation that survives: both formulas have their new numbers, the rest is as it was. -/
structure Obligation.Becomes (r : Relocation) (ob ob' : Obligation) : Prop where
  forward : r.apply ob.forward = some ob'.forward
  counter : r.apply ob.counter = some ob'.counter
  depth : ob'.depth = ob.depth
  score : ob'.score = ob.score

theorem Obligation.becomes_iff {r : Relocation} {ob ob' : Obligation} :
    ob.Becomes r ob' ↔ ob.relocate r = some ob' := by
  rw [relocate_eq_some]
  exact ⟨fun ⟨hf, hc, hd, hs⟩ => ⟨hf, hc, hd, hs⟩, fun ⟨hf, hc, hd, hs⟩ => ⟨hf, hc, hd, hs⟩⟩

namespace Agenda

variable {q q' : Agenda} {r : Relocation}

/-- Of several with one counter-state the first. -/
def firsts (obs : List Obligation) : List Obligation := obs.eraseDupsBy Obligation.sameAs

theorem firsts_cons (ob : Obligation) (obs : List Obligation) :
    firsts (ob :: obs) = ob :: firsts (obs.filter fun ob' => ob'.counter ≠ ob.counter) := by
  rw [firsts, List.eraseDupsBy_cons, firsts]
  simp [Obligation.sameAs]

def survivors (q : Agenda) (r : Relocation) : List Obligation :=
  firsts (q.bySlot.filterMap (·.relocate r))

/-- What comes on top of `kept` when `obs` are pushed and a counter-state that waits already is
skipped. -/
def newcomers (kept obs : List Obligation) : List Obligation :=
  firsts (obs.filter fun ob => ob.counter ∉ kept.map (·.counter))

theorem newcomers_of_mem {kept obs : List Obligation} {ob : Obligation}
    (h : ob.counter ∈ kept.map (·.counter)) : newcomers kept (ob :: obs) = newcomers kept obs := by
  rw [newcomers, List.filter_cons_of_neg (by simpa using h), newcomers]

theorem newcomers_of_not_mem {kept obs : List Obligation} {ob : Obligation}
    (h : ob.counter ∉ kept.map (·.counter)) :
    newcomers kept (ob :: obs) = ob :: newcomers (kept ++ [ob]) obs := by
  rw [newcomers, List.filter_cons_of_pos (by simpa using h), firsts_cons, List.filter_filter,
    newcomers]
  refine congrArg (ob :: firsts ·) (List.filter_congr fun ob' _ => ?_)
  rw [List.map_append, List.map_singleton, ← Bool.decide_and, decide_eq_decide, List.mem_append,
    List.mem_singleton, not_or, and_comm]

theorem Packed.contains_iff {obs : List Obligation} (h : q.Packed obs) (hq : q.Valid)
    {c : Formula} : q.contains c = true ↔ c ∈ obs.map (·.counter) := by
  rw [hq.contains_iff, List.mem_map]
  constructor
  · rintro ⟨ob, hob⟩
    obtain ⟨slot, hslot, hc⟩ := hq.find?_eq_some.mp hob
    exact ⟨ob, List.mem_of_getElem? ((h.get?_eq slot).symm.trans hslot), hc⟩
  · rintro ⟨ob, hob, hc⟩
    obtain ⟨slot, hslot⟩ := List.getElem?_of_mem hob
    exact ⟨ob, hq.find?_eq_some.mpr ⟨slot, (h.get?_eq slot).trans hslot, hc⟩⟩

theorem filterMap_relocate_cons (ob : Obligation) (obs : List Obligation) :
    (ob :: obs).filterMap (·.relocate r) =
      (ob.relocate r).toList ++ obs.filterMap (·.relocate r) := by
  rw [List.filterMap_cons]
  cases ob.relocate r <;> rfl

theorem relocateOne_packed {kept : List Obligation} {ob : Obligation} {lost lost' : Nat}
    (hq : q.Valid) (h : q.Packed kept) (hone : relocateOne r (lost, q) ob = .ok (lost', q')) :
    ∃ kept', q'.Packed kept' ∧ ∀ obs : List Obligation,
      kept' ++ newcomers kept' (obs.filterMap (·.relocate r)) =
        kept ++ newcomers kept ((ob :: obs).filterMap (·.relocate r)) := by
  rw [relocateOne] at hone
  cases hob : ob.relocate r with
  | none =>
      rw [hob] at hone
      cases hone
      exact ⟨kept, h, fun obs => by rw [filterMap_relocate_cons, hob]; rfl⟩
  | some ob' =>
      rw [hob] at hone
      have hin := h.contains_iff hq (c := ob'.counter)
      dsimp only at hone
      split at hone
      next hcontains =>
        cases hone
        refine ⟨kept, h, fun obs => ?_⟩
        rw [filterMap_relocate_cons, hob, Option.toList_some, List.singleton_append,
          newcomers_of_mem (hin.mp hcontains)]
      next hcontains =>
        obtain ⟨⟨slot, q₁⟩, hpush, hret⟩ := bind_eq_ok.mp hone
        cases hret
        refine ⟨kept ++ [ob'], h.push hpush, fun obs => ?_⟩
        rw [filterMap_relocate_cons, hob, Option.toList_some, List.singleton_append,
          newcomers_of_not_mem (mt hin.mpr hcontains), List.append_assoc, List.singleton_append]

theorem foldlM_relocateOne_packed : ∀ {obs kept : List Obligation} {q q' : Agenda}
    {lost lost' : Nat}, q.Valid → q.Packed kept →
    obs.foldlM (relocateOne r) (lost, q) = .ok (lost', q') →
    q'.Packed (kept ++ newcomers kept (obs.filterMap (·.relocate r)))
  | [], kept, q, q', lost, lost', _, h, hfold => by
      cases hfold
      rw [List.filterMap_nil, newcomers, List.filter_nil]
      exact (List.append_nil kept).symm ▸ h
  | ob :: obs, kept, q, q', lost, lost', hq, h, hfold => by
      rw [List.foldlM_cons] at hfold
      obtain ⟨⟨lost₁, q₁⟩, hone, hfold⟩ := bind_eq_ok.mp hfold
      obtain ⟨_, _, hone', hq₁, _⟩ := relocateOne_eq hq r lost ob
      cases hone.symm.trans hone'
      obtain ⟨kept', hkept', hrest⟩ := relocateOne_packed hq h hone
      rw [← hrest]
      exact foldlM_relocateOne_packed hq₁ hkept' hfold

theorem relocate_packed {lost : Nat} (h : q.relocate r = .ok (lost, q')) :
    q'.Packed (q.survivors r) := by
  have hpacked := foldlM_relocateOne_packed empty_valid Packed.empty h
  rwa [List.nil_append, newcomers, List.filter_eq_self.mpr fun _ _ => by simp] at hpacked

theorem find?_filterMap_eq_some {α β : Type} {f : α → Option β} {p : β → Bool} {l : List α}
    {b : β} : (l.filterMap f).find? p = some b ↔ ∃ before a after, l = before ++ a :: after ∧
      f a = some b ∧ p b = true ∧ ∀ x ∈ before, ∀ y, f x = some y → p y = false := by
  rw [List.find?_filterMap, Option.bind_eq_some_iff]
  constructor
  · rintro ⟨a, ha, hb⟩
    obtain ⟨hp, before, after, hl, hbefore⟩ := List.find?_eq_some_iff_append.mp ha
    refine ⟨before, a, after, hl, hb, by simpa [hb] using hp, fun x hx y hy => ?_⟩
    simpa [hy] using hbefore x hx
  · rintro ⟨before, a, after, hl, hb, hp, hbefore⟩
    refine ⟨a, List.find?_eq_some_iff_append.mpr ⟨by simpa [hb] using hp, before, after, hl,
      fun x hx => ?_⟩, hb⟩
    cases hx' : f x with
    | none => rfl
    | some y => simp [hbefore x hx y hx']

theorem allows_of_perform {op : Operation} {answer : Answer}
    (h : q.perform op = .ok (answer, q')) : q.allows op = true := by
  cases op with
  | push ob =>
      obtain ⟨_, hpush, _⟩ := bind_eq_ok.mp h
      rw [Agenda.push] at hpush
      split at hpush
      next => cases hpush
      next hnew => simpa [allows] using hnew
  | pop =>
      obtain ⟨_, hpop, _⟩ := bind_eq_ok.mp h
      rw [Agenda.pop] at hpop
      split at hpop
      next => cases hpop
      next hsome => simpa [allows] using hsome
  | _ => rfl

theorem legal_of_play : ∀ {ops : List Operation} {q q' : Agenda} {answers : List Answer},
    play ops q = .ok (answers, q') → legal ops q = true
  | [], _, _, _, _ => rfl
  | op :: ops, q, q', answers, h => by
      obtain ⟨⟨answer, q₁⟩, hop, h⟩ := bind_eq_ok.mp h
      obtain ⟨⟨answers', q₂⟩, hplay, _⟩ := bind_eq_ok.mp h
      rw [legal, allows_of_perform hop, hop, Bool.true_and]
      exact legal_of_play hplay

theorem valid_of_play {ops : List Operation} {answers : List Answer}
    (h : play ops empty = .ok (answers, q)) : q.Valid := by
  obtain ⟨_, _, _, hplay, _, hq⟩ := empty_refines.play (legal_of_play h)
  cases h.symm.trans hplay
  exact hq.valid

/-- What a relocation leaves of an agenda. -/
structure Resettled (q : Agenda) (r : Relocation) (lost : Nat) (q' : Agenda) : Prop where
  size_le : q'.size ≤ q.size
  lost_eq : lost = q.size - q'.size
  /-- For each new counter-state, the first in the old slots that comes to it. -/
  find?_iff : ∀ {ob'}, q'.find? ob'.counter = some ob' ↔
    ∃ before ob after, q.bySlot = before ++ ob :: after ∧ ob.Becomes r ob' ∧
      ∀ x ∈ before, ∀ x', x.Becomes r x' → x'.counter ≠ ob'.counter
  slots : q'.slots.toList = (q.survivors r).map some
  handle : ∀ {slot ob'}, (q.survivors r)[slot]? = some ob' → q'.handle? ob'.counter = some slot
  pops : ∃ (obs : List Obligation) (q'' : Agenda),
    play (List.replicate q'.size .pop) q' = .ok (obs.map .taken, q'') ∧ q''.isEmpty = true ∧
      obs.Perm (q.survivors r) ∧ obs.Pairwise Obligation.Leads

theorem play_relocate {ops : List Operation} {answers : List Answer}
    (h : play ops empty = .ok (answers, q)) (r : Relocation) :
    ∃ lost q', q.relocate r = .ok (lost, q') ∧ Resettled q r lost q' := by
  have hq := valid_of_play h
  obtain ⟨lost, q', hrelocate, hq', hcount, hfind⟩ := relocate_eq q r
  rw [hq.refines_table.length_bySlot, ← hq.refines_table.size_eq] at hcount
  have hpacked := relocate_packed hrelocate
  have hlisted := hq'.refines_table.perm_obligations hq'.nodup_bySlot fun ob =>
    hq'.mem_bySlot_iff.symm
  obtain ⟨obs, q'', hdrain, hempty, hperm, hlead⟩ := hq'.refines_table.drain rfl
  refine ⟨lost, q', hrelocate, by omega, by omega, fun {ob'} => ?_, hpacked.slots,
    fun {slot ob'} hslot => ?_, obs, q'', hdrain, hempty, ?_, hlead⟩
  · rw [hfind, find?_filterMap_eq_some]
    simp [Obligation.becomes_iff]
  · exact hq'.handle_eq.mpr ⟨ob', (hpacked.get?_eq slot).trans hslot, rfl⟩
  · rw [← hpacked.bySlot]
    exact hperm.trans hlisted.symm

/-- Four are pushed, and the pop of the most urgent one leaves a gap between the others. -/
def gapped : List Operation :=
  [.push ⟨⟨11⟩, ⟨1⟩, 1, .zero⟩, .push ⟨⟨12⟩, ⟨2⟩, 0, .one⟩, .push ⟨⟨13⟩, ⟨3⟩, 1, .zero⟩,
    .push ⟨⟨14⟩, ⟨4⟩, 1, .zero⟩, .pop]

/-- 1 and 3 come together, 11 is renamed, and 4 passes them. -/
def merging : Relocation :=
  (((Relocation.move {} ⟨1⟩ ⟨7⟩).move ⟨3⟩ ⟨7⟩).move ⟨11⟩ ⟨8⟩).move ⟨13⟩ ⟨9⟩

theorem play_relocate_gapped :
    ∃ answers q, play gapped empty = .ok (answers, q) ∧
      ∃ lost q', q.relocate merging = .ok (lost, q') ∧ Resettled q merging lost q' := by
  have hlegal : legal gapped empty = true := by decide +kernel
  obtain ⟨answers, q, _, hplay, _⟩ := empty_refines.play hlegal
  exact ⟨answers, q, hplay, play_relocate hplay merging⟩

example : (do
    let (_, q) ← play gapped empty
    let (lost, q) ← q.relocate merging
    return (lost, q.bySlot)) = .ok (1, [⟨⟨8⟩, ⟨7⟩, 1, .zero⟩, ⟨⟨14⟩, ⟨4⟩, 1, .zero⟩]) := by
  decide +kernel

end Agenda

end Invariance
