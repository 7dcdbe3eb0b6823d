import Invariance.Proofs.Agenda.Relocating

/-!
Handles. A run of operations is told as a history of what happened to the slots, with the handle
that each push returned. From the history alone follows what a handle leads to: the obligation of
its push, with the score that the bumps since then gave it, until a pop takes it or the agenda is
rebuilt; and nothing from the pop until the slot is taken again.
-/

namespace Invariance.Agenda

/-- What an operation did. A pop is told with the handle that its obligation had; a clear, a
relocation and a selection are told with the obligations in the slots from 0 on. -/
inductive Change where
  | seated (ob : Obligation) (slot : Nat)
  | left (ob : Obligation) (handle : Option Nat)
  | rescored (counter : Formula) (amount : Score)
  | rebuilt (obs : List Obligation)

def enact (q : Agenda) : Operation → Except Violation (Change × Agenda)
  | .push ob => do
      let (slot, q) ← q.push ob
      return (.seated ob slot, q)
  | .pop => do
      let (ob, q') ← q.pop
      return (.left ob (q.handle? ob.counter), q')
  | .bump counter amount => do
      let (_, q) ← q.bump counter amount
      return (.rescored counter amount, q)
  | op => do
      let (_, q) ← q.perform op
      return (.rebuilt q.bySlot, q)

def narrate : List Operation → Agenda → Except Violation (List Change × Agenda)
  | [], q => .ok ([], q)
  | op :: ops, q => do
      let (change, q) ← q.enact op
      let (changes, q) ← narrate ops q
      return (change :: changes, q)

/-- How many wait, and the most that have waited at once since the agenda was last built up. -/
structure Crowd where
  now : Nat
  most : Nat

namespace Change

def Seats : Change → Obligation → Nat → Prop
  | .seated ob slot, ob', slot' => ob = ob' ∧ slot = slot'
  | .rebuilt obs, ob', slot' => obs[slot']? = some ob'
  | _, _, _ => False

def Unseats : Change → Formula → Prop
  | .left ob _, counter => ob.counter = counter
  | .rebuilt _, _ => True
  | _, _ => False

def rescore (ob : Obligation) : Change → Obligation
  | .rescored counter amount => if ob.counter = counter then ob.bump amount else ob
  | _ => ob

/-- The free slots, the one freed last in front. -/
def release (free : List Nat) : Change → List Nat
  | .seated _ _ => free.tail
  | .left _ handle => handle.toList ++ free
  | .rescored _ _ => free
  | .rebuilt _ => []

def count (crowd : Crowd) : Change → Crowd
  | .seated _ _ => ⟨crowd.now + 1, max crowd.most (crowd.now + 1)⟩
  | .left _ _ => ⟨crowd.now - 1, crowd.most⟩
  | .rescored _ _ => crowd
  | .rebuilt obs => ⟨obs.length, obs.length⟩

theorem rescore_counter (ob : Obligation) (e : Change) : (rescore ob e).counter = ob.counter := by
  cases e with
  | rescored counter amount =>
      rw [rescore]
      split <;> rfl
  | _ => rfl

theorem foldl_rescore_counter (ob : Obligation) (history : List Change) :
    (history.foldl rescore ob).counter = ob.counter := by
  induction history generalizing ob with
  | nil => rfl
  | cons e history ih => rw [List.foldl_cons, ih, rescore_counter]

end Change

def freed (history : List Change) : List Nat := history.foldl Change.release []

def crowd (history : List Change) : Crowd := history.foldl Change.count ⟨0, 0⟩

/-- What a history tells about the agenda at its end. -/
structure Lasting (history : List Change) (q : Agenda) : Prop where
  stable : ∀ {before e after ob slot}, history = before ++ e :: after → Change.Seats e ob slot →
    (∀ x ∈ after, ¬ Change.Unseats x ob.counter) →
    q.get? slot = some (after.foldl Change.rescore ob) ∧ q.handle? ob.counter = some slot
  distinct : ∀ {c c' slot}, q.handle? c = some slot → q.handle? c' = some slot → c = c'
  taken : ∀ {before e between ob slot ob' handle after},
    history = before ++ e :: between ++ .left ob' handle :: after → Change.Seats e ob slot →
    (∀ x ∈ between, ¬ Change.Unseats x ob.counter) → ob'.counter = ob.counter →
    ob' = between.foldl Change.rescore ob ∧ handle = some slot
  vacated : ∀ {before ob handle after}, history = before ++ .left ob handle :: after →
    ∃ slot, handle = some slot ∧
      ((∀ x ∈ after, ∀ ob', ¬ Change.Seats x ob' slot) → q.get? slot = none)
  reused : ∀ {before ob slot after}, history = before ++ .seated ob slot :: after →
    slot = (freed before).headD (crowd before).most
  vacant_eq : q.vacant = freed history
  slots_eq : q.slots.size = (crowd history).most
  size_eq : q.size = (crowd history).now

variable {q q' : Agenda} {e : Change}

/-- What a change says about the agenda before it and after it. -/
structure Effect (e : Change) (q q' : Agenda) : Prop where
  get?_iff : ∀ {slot ob'}, q'.get? slot = some ob' ↔ e.Seats ob' slot ∨
    ∃ ob, q.get? slot = some ob ∧ ¬ e.Unseats ob.counter ∧ Change.rescore ob e = ob'
  vacant : q'.vacant = Change.release q.vacant e
  crowd : ⟨q'.size, q'.slots.size⟩ = Change.count ⟨q.size, q.slots.size⟩ e
  seated : ∀ {ob slot}, e = .seated ob slot → slot = q.vacant.headD q.slots.size
  left : ∀ {ob handle}, e = .left ob handle → ∃ slot, handle = some slot ∧ q.get? slot = some ob

/-- Every slot is in the heap or free, and none is both. -/
theorem Valid.slots_size (hq : q.Valid) : q.slots.size = q.size + q.vacant.length := by
  have hnodup : (q.heap.toList ++ q.vacant).Nodup := by
    refine List.nodup_append.mpr ⟨hq.linked.nodup_heap, hq.vacant_nodup,
      fun slot hslot slot' hslot' heq => ?_⟩
    obtain ⟨i, hi⟩ := Array.mem_iff_getElem?.mp (Array.mem_toList_iff.mp hslot)
    obtain ⟨ob, hob⟩ := hq.linked.occupied hi
    rw [heq, ((hq.mem_vacant slot').mp hslot').2] at hob
    cases hob
  have hmem : ∀ slot, slot ∈ q.heap.toList ++ q.vacant ↔ slot ∈ List.range q.slots.size := by
    intro slot
    rw [List.mem_append, Array.mem_toList_iff, hq.mem_vacant, List.mem_range]
    constructor
    · rintro (hslot | hslot)
      · obtain ⟨i, hi⟩ := Array.mem_iff_getElem?.mp hslot
        obtain ⟨ob, hob⟩ := hq.linked.occupied hi
        exact lt_of_get? hob
      · exact hslot.1
    · intro hlt
      cases hslot : q.get? slot with
      | none => exact Or.inr ⟨hlt, rfl⟩
      | some ob => exact Or.inl (hq.listed hslot)
  have hperm := (List.perm_ext_iff_of_nodup hnodup List.nodup_range).mpr hmem
  have hlength := hperm.length_eq
  rw [List.length_append, List.length_range, Array.length_toList] at hlength
  exact hlength.symm

namespace Effect

theorem push {ob : Obligation} {slot : Nat} (hq : q.Valid) (hq' : q'.Valid)
    (hsize : q'.size = q.size + 1) (h : q.push ob = .ok (slot, q')) :
    Effect (.seated ob slot) q q' := by
  have htakes := (push_takes h).1
  have hfree : q.get? slot = none := by
    cases htakes with
    | fresh _ hslot =>
        rw [get?, hslot, Array.getElem?_eq_none (Nat.le_refl _)]
        rfl
    | again _ hv => exact ((hq.mem_vacant slot).mp (hv ▸ List.mem_cons_self)).2
  refine ⟨fun {k ob'} => ?_, htakes.vacant_eq, ?_, fun heq => ?_, fun heq => by cases heq⟩
  · rw [htakes.get?_eq]
    by_cases hk : k = slot
    · subst hk
      simp [Change.Seats, hfree]
    · simp [Change.Seats, Change.Unseats, Change.rescore, hk, Ne.symm hk]
  · have hslots := hq.slots_size
    have hslots' := hq'.slots_size
    rw [htakes.vacant_eq, List.length_tail] at hslots'
    simp only [Change.count, Crowd.mk.injEq]
    cases htakes with
    | fresh hv =>
        simp only [hv, List.length_nil] at hslots hslots'
        omega
    | again _ hv =>
        simp only [hv, List.length_cons] at hslots hslots'
        omega
  · cases heq
    exact htakes.slot_eq

theorem pop {ob : Obligation} (hq : q.Valid) (hsize : q'.size + 1 = q.size)
    (h : q.pop = .ok (ob, q')) : Effect (.left ob (q.handle? ob.counter)) q q' := by
  obtain ⟨slot, hfrees⟩ := pop_frees h
  have hhandle : q.handle? ob.counter = some slot := hq.handle_eq.mpr ⟨ob, hfrees.held, rfl⟩
  refine ⟨fun {k ob'} => ?_, ?_, ?_, fun heq => (by cases heq), fun heq => ?_⟩
  · rw [hfrees.get?_eq]
    by_cases hk : k = slot
    · subst hk
      simp [Change.Seats, Change.Unseats, hfrees.held]
    · have hother : ∀ {ob₁}, q.get? k = some ob₁ → ob.counter ≠ ob₁.counter :=
        fun hob₁ hc => hk (hq.slot_unique hob₁ hfrees.held hc.symm)
      rw [if_neg hk]
      simp only [Change.Seats, Change.Unseats, Change.rescore, false_or]
      exact ⟨fun hob' => ⟨ob', hob', hother hob', rfl⟩, fun ⟨_, hob₁, _, heq⟩ => heq ▸ hob₁⟩
  · rw [hfrees.vacant, hhandle]
    rfl
  · simp only [hfrees.slots_size, Change.count, Crowd.mk.injEq, and_true]
    omega
  · cases heq
    exact ⟨slot, hhandle, hfrees.held⟩

theorem bump {counter : Formula} {amount : Score} {found : Bool} (hq : q.Valid)
    (hsize : q'.size = q.size) (h : q.bump counter amount = .ok (found, q')) :
    Effect (.rescored counter amount) q q' := by
  obtain ⟨hget, hvacant, hslots⟩ := bump_slots h
  refine ⟨fun {k ob'} => ?_, hvacant, by rw [hsize, hslots]; rfl,
    fun heq => (by cases heq), fun heq => by cases heq⟩
  have hat : ∀ {ob}, q.get? k = some ob → (q.handle? counter = some k ↔ ob.counter = counter) := by
    intro ob hob
    rw [hq.handle_eq, hob]
    simp
  rw [hget]
  simp only [Change.Seats, Change.Unseats, Change.rescore, false_or, not_false_eq_true, true_and]
  cases hk : q.get? k with
  | none => simp
  | some ob =>
      simp only [hat hk, Option.map_some, Option.some.injEq, exists_eq_left']
      split <;> simp

theorem rebuild {obs : List Obligation} (hpacked : q'.Packed obs) (hq' : q'.Valid) :
    Effect (.rebuilt q'.bySlot) q q' := by
  have hsize := hq'.slots_size
  rw [hpacked.slots_size, hpacked.vacant, List.length_nil, Nat.add_zero] at hsize
  rw [hpacked.bySlot]
  refine ⟨fun {k ob'} => ?_, hpacked.vacant, ?_, fun heq => (by cases heq),
    fun heq => by cases heq⟩
  · rw [hpacked.get?_eq]
    simp [Change.Seats, Change.Unseats]
  · rw [hpacked.slots_size, ← hsize]
    rfl

end Effect

theorem enact_effect {op : Operation} (hq : q.Valid) (hallow : q.allows op = true) :
    ∃ e answer q', q.enact op = .ok (e, q') ∧ q.perform op = .ok (answer, q') ∧ q'.Valid ∧
      Effect e q q' := by
  cases op with
  | push ob =>
      have hnew : q.contains ob.counter = false := by simpa [allows] using hallow
      obtain ⟨slot, q', hpush, hq', hsize, _⟩ := push_eq hq (hq.contains_eq_false.mp hnew)
      refine ⟨.seated ob slot, .done, q', ?_, ?_, hq', .push hq hq' hsize hpush⟩
      · rw [enact, hpush]; rfl
      · rw [perform, hpush]; rfl
  | pop =>
      have hsome : q.isEmpty = false := by simpa [allows] using hallow
      obtain ⟨ob, q', hpop, hq', hsize, _⟩ := pop_eq hq hsome
      refine ⟨.left ob (q.handle? ob.counter), .taken ob, q', ?_, ?_, hq', .pop hq hsize hpop⟩
      · rw [enact, hpop]; rfl
      · rw [perform, hpop]; rfl
  | bump counter amount =>
      obtain ⟨q', hbump, hq', hsize, _⟩ := bump_eq hq counter amount
      refine ⟨.rescored counter amount, .bumped (q.contains counter), q', ?_, ?_, hq',
        .bump hq hsize hbump⟩
      · rw [enact, hbump]; rfl
      · rw [perform, hbump]; rfl
  | clear =>
      exact ⟨.rebuilt empty.bySlot, .done, empty, rfl, rfl, empty_valid,
        .rebuild Packed.empty empty_valid⟩
  | relocate r =>
      obtain ⟨lost, q', hrelocate, hq', _⟩ := relocate_eq q r
      refine ⟨.rebuilt q'.bySlot, .dropped lost, q', ?_, ?_, hq',
        .rebuild (relocate_packed hrelocate) hq'⟩
      · simp only [enact, perform, hrelocate]; rfl
      · rw [perform, hrelocate]; rfl
  | retain keep =>
      obtain ⟨lost, q', hretain, _, hq'⟩ := hq.refines_table.retain keep
      refine ⟨.rebuilt q'.bySlot, .dropped lost, q', ?_, ?_, hq'.valid,
        .rebuild (retain_packed hretain) hq'.valid⟩
      · simp only [enact, perform, hretain]; rfl
      · rw [perform, hretain]; rfl

theorem concat_split {α : Type} {xs before after : List α} {x y : α}
    (h : xs ++ [y] = before ++ x :: after) :
    after = [] ∧ before = xs ∧ x = y ∨ ∃ after', after = after' ++ [y] ∧
      xs = before ++ x :: after' := by
  rcases List.eq_nil_or_concat after with rfl | ⟨after', z, rfl⟩
  · obtain ⟨rfl, heq⟩ := List.append_inj' h rfl
    exact Or.inl ⟨rfl, rfl, (List.singleton_inj.mp heq).symm⟩
  · rw [List.concat_eq_append, ← List.cons_append, ← List.append_assoc] at h
    obtain ⟨hxs, heq⟩ := List.append_inj' h rfl
    rw [List.concat_eq_append, ← List.singleton_inj.mp heq]
    exact Or.inr ⟨after', rfl, hxs⟩

namespace Lasting

variable {history : List Change}

theorem nil : Lasting [] empty where
  stable h := by simp at h
  distinct h := by cases h
  taken h := by simp at h
  vacated h := by simp at h
  reused h := by simp at h
  vacant_eq := rfl
  slots_eq := rfl
  size_eq := rfl

/-- One change more at the end of the history. -/
theorem step (h : Lasting history q) (hq : q.Valid) (hq' : q'.Valid) (he : Effect e q q') :
    Lasting (history ++ [e]) q' := by
  have hsame : ∀ {slot}, q.get? slot = none → (∀ ob, ¬ e.Seats ob slot) →
      q'.get? slot = none := fun {slot} hnone hnot => by
    refine Option.eq_none_iff_forall_not_mem.mpr fun ob' hob' => ?_
    obtain hseat | ⟨ob, hob, _⟩ := he.get?_iff.mp hob'
    · exact hnot ob' hseat
    · rw [hnone] at hob
      cases hob
  have hcrowd : crowd (history ++ [e]) = ⟨q'.size, q'.slots.size⟩ := by
    rw [crowd, List.foldl_append, List.foldl_cons, List.foldl_nil, he.crowd, h.size_eq, h.slots_eq,
      crowd]
  constructor
  case stable =>
    intro before x after ob slot hsplit hseat hkept
    have hget : q'.get? slot = some (after.foldl Change.rescore ob) := by
      obtain ⟨rfl, rfl, rfl⟩ | ⟨after', rfl, hhistory⟩ := concat_split hsplit
      · exact he.get?_iff.mpr (Or.inl hseat)
      · have hold := (h.stable hhistory hseat fun x hx =>
          hkept x (List.mem_append_left _ hx)).1
        rw [List.foldl_append]
        refine he.get?_iff.mpr (Or.inr ⟨_, hold, ?_, rfl⟩)
        rw [Change.foldl_rescore_counter]
        exact hkept e (List.mem_append_right _ List.mem_cons_self)
    exact ⟨hget, hq'.handle_eq.mpr ⟨_, hget, Change.foldl_rescore_counter ob after⟩⟩
  case distinct =>
    intro c c' slot hc hc'
    obtain ⟨ob, hob, rfl⟩ := hq'.handle_eq.mp hc
    obtain ⟨ob', hob', rfl⟩ := hq'.handle_eq.mp hc'
    rw [Option.some.inj (hob.symm.trans hob')]
  case taken =>
    intro before x between ob slot ob' handle after hsplit hseat hkept hc
    obtain ⟨rfl, rfl, rfl⟩ | ⟨after', rfl, hhistory⟩ := concat_split hsplit
    · obtain ⟨slot', rfl, hob'⟩ := he.left rfl
      have hold := (h.stable rfl hseat hkept).1
      have hcounter := Change.foldl_rescore_counter ob between
      obtain rfl : slot' = slot := hq.slot_unique hob' hold (hc.trans hcounter.symm)
      exact ⟨Option.some.inj (hob'.symm.trans hold), rfl⟩
    · exact h.taken hhistory hseat hkept hc
  case vacated =>
    intro before ob handle after hsplit
    obtain ⟨rfl, rfl, rfl⟩ | ⟨after', rfl, hhistory⟩ := concat_split hsplit
    · obtain ⟨slot, rfl, hob⟩ := he.left rfl
      refine ⟨slot, rfl, fun _ => Option.eq_none_iff_forall_not_mem.mpr fun ob' hob' => ?_⟩
      obtain hseat | ⟨ob₁, hob₁, hnot, _⟩ := he.get?_iff.mp hob'
      · exact hseat
      · exact hnot (by rw [Option.some.inj (hob₁.symm.trans hob)]; rfl)
    · obtain ⟨slot, rfl, hnone⟩ := h.vacated hhistory
      exact ⟨slot, rfl, fun hnot => hsame (hnone fun x hx => hnot x (List.mem_append_left _ hx))
        (hnot e (List.mem_append_right _ List.mem_cons_self))⟩
  case reused =>
    intro before ob slot after hsplit
    obtain ⟨rfl, rfl, rfl⟩ | ⟨after', rfl, hhistory⟩ := concat_split hsplit
    · rw [he.seated rfl, h.vacant_eq, h.slots_eq]
    · exact h.reused hhistory
  case vacant_eq => rw [he.vacant, h.vacant_eq, freed, freed, List.foldl_append]; rfl
  case slots_eq => rw [hcrowd]
  case size_eq => rw [hcrowd]

end Lasting

theorem narrate_lasting : ∀ {ops : List Operation} {history : List Change} {q : Agenda}, q.Valid →
    Lasting history q → legal ops q = true → ∃ answers later q', play ops q = .ok (answers, q') ∧
      narrate ops q = .ok (later, q') ∧ Lasting (history ++ later) q'
  | [], history, q, _, h, _ => ⟨[], [], q, rfl, rfl, (List.append_nil history).symm ▸ h⟩
  | op :: ops, history, q, hq, h, hlegal => by
      obtain ⟨hallow, hrest⟩ := Bool.and_eq_true_iff.mp hlegal
      obtain ⟨e, answer, q₁, henact, hperform, hq₁, he⟩ := enact_effect hq hallow
      rw [hperform] at hrest
      obtain ⟨answers, later, q', hplay, hnarrate, h'⟩ :=
        narrate_lasting hq₁ (h.step hq hq₁ he) hrest
      refine ⟨answer :: answers, e :: later, q', ?_, ?_, List.append_cons history e later ▸ h'⟩
      · rw [play, hperform]
        simp only [bind, Except.bind, hplay]
        rfl
      · rw [narrate, henact]
        simp only [bind, Except.bind, hnarrate]
        rfl

/-- From the empty agenda on, no access fails, and the history tells what every handle leads to. -/
theorem play_lasting {ops : List Operation} (h : legal ops empty = true) :
    ∃ answers history q, play ops empty = .ok (answers, q) ∧
      narrate ops empty = .ok (history, q) ∧ Lasting history q :=
  narrate_lasting empty_valid .nil h

/-- Three are pushed and two popped, the next two take their slots, and all is built up again. -/
def turnover : List Operation :=
  [.push ⟨⟨11⟩, ⟨1⟩, 1, .zero⟩, .push ⟨⟨12⟩, ⟨2⟩, 0, .one⟩, .push ⟨⟨13⟩, ⟨3⟩, 2, .zero⟩,
    .bump ⟨3⟩ .one, .pop, .pop, .push ⟨⟨14⟩, ⟨4⟩, 3, .zero⟩, .push ⟨⟨15⟩, ⟨5⟩, 4, .zero⟩,
    .push ⟨⟨16⟩, ⟨6⟩, 4, .one⟩, .relocate (Relocation.move {} ⟨4⟩ ⟨3⟩), .pop,
    .push ⟨⟨17⟩, ⟨7⟩, 0, .one⟩]

theorem turnover_lasting : legal turnover empty = true ∧
    ∃ answers history q, play turnover empty = .ok (answers, q) ∧
      narrate turnover empty = .ok (history, q) ∧ Lasting history q :=
  ⟨by decide +kernel, play_lasting (by decide +kernel)⟩

end Invariance.Agenda
