import Invariance.Proofs.Agenda.Waiting

/-!
The agenda against a finite map. A table keeps the obligations by their counter-states and knows
nothing of slots, handles or heap order; `Turn` says what an operation does to it and answers.
Main statement: every sequence of operations that pushes only what does not wait yet, and pops only
while something waits, runs without a failed access and answers as the table does.
-/

namespace Invariance

/-- The nearer one to the property leads, then the one with the higher score, then the one whose
counter-state has the smaller number. -/
def Obligation.Leads (a b : Obligation) : Prop :=
  a.depth < b.depth ∨ a.depth = b.depth ∧
    (b.score.rank < a.score.rank ∨ b.score.rank = a.score.rank ∧ a.counter.id < b.counter.id)

theorem Obligation.leads_iff {a b : Obligation} : a.Leads b ↔ a.Precedes b := precedes_iff.symm

abbrev Table := FormulaMap Obligation

namespace Table

def obligations (t : Table) : List Obligation := t.entries.map Prod.snd

def First (t : Table) (ob : Obligation) : Prop :=
  t.get? ob.counter = some ob ∧
    ∀ {c other}, t.get? c = some other → c ≠ ob.counter → ob.Leads other

def restrict (t : Table) (keep : Obligation → Bool) : Table :=
  ⟨t.entries.filter fun x => keep x.2, t.ascending.filter _⟩

/-- What becomes of the obligations when the formulas get other numbers. Of several that end on one
counter-state one stays, and the relocation alone does not say which. -/
structure Relocates (r : Relocation) (t t' : Table) : Prop where
  comes : ∀ {c ob'}, t'.get? c = some ob' →
    ob'.counter = c ∧ ∃ c₀ ob, t.get? c₀ = some ob ∧ ob.relocate r = some ob'
  stays : ∀ {c₀ ob ob'}, t.get? c₀ = some ob → ob.relocate r = some ob' →
    t'.contains ob'.counter = true

end Table

namespace Agenda

inductive Operation where
  | push (ob : Obligation)
  | pop
  | bump (counter : Formula) (amount : Score)
  | clear
  | relocate (r : Relocation)
  | retain (keep : Obligation → Bool)

inductive Answer where
  | done
  | taken (ob : Obligation)
  | bumped (found : Bool)
  | dropped (count : Nat)

def perform (q : Agenda) : Operation → Except Violation (Answer × Agenda)
  | .push ob => do return (.done, (← q.push ob).2)
  | .pop => do
      let (ob, q) ← q.pop
      return (.taken ob, q)
  | .bump counter amount => do
      let (found, q) ← q.bump counter amount
      return (.bumped found, q)
  | .clear => .ok (.done, empty)
  | .relocate r => do
      let (lost, q) ← q.relocate r
      return (.dropped lost, q)
  | .retain keep => do
      let (lost, q) ← q.retain keep
      return (.dropped lost, q)

def play : List Operation → Agenda → Except Violation (List Answer × Agenda)
  | [], q => .ok ([], q)
  | op :: ops, q => do
      let (answer, q) ← q.perform op
      let (answers, q) ← play ops q
      return (answer :: answers, q)

def allows (q : Agenda) : Operation → Bool
  | .push ob => !q.contains ob.counter
  | .pop => !q.isEmpty
  | _ => true

/-- A caller that looks first: it pushes what does not wait yet and pops while something waits. -/
def legal : List Operation → Agenda → Bool
  | [], _ => true
  | op :: ops, q => q.allows op &&
      match q.perform op with
      | .ok (_, q') => legal ops q'
      | .error _ => true

/-- What an operation does to a table, with its answer. -/
inductive Turn : Operation → Table → Answer → Table → Prop
  | push {t ob} : t.contains ob.counter = false →
      Turn (.push ob) t .done (t.insert ob.counter ob)
  | pop {t ob} : t.First ob → Turn .pop t (.taken ob) (t.erase ob.counter)
  | miss {t counter amount} : t.contains counter = false →
      Turn (.bump counter amount) t (.bumped false) t
  | bump {t counter amount ob} : t.get? counter = some ob →
      Turn (.bump counter amount) t (.bumped true)
        (t.insert counter { ob with score := ob.score.bump amount })
  | clear {t} : Turn .clear t .done .empty
  | relocate {r t t' lost} : t.Relocates r t' → lost + t'.size = t.size →
      Turn (.relocate r) t (.dropped lost) t'
  | retain {keep t lost} : lost + (t.restrict keep).size = t.size →
      Turn (.retain keep) t (.dropped lost) (t.restrict keep)

inductive Turns : List Operation → Table → List Answer → Table → Prop
  | nil {t} : Turns [] t [] t
  | cons {op ops t t' t'' answer answers} : Turn op t answer t' → Turns ops t' answers t'' →
      Turns (op :: ops) t (answer :: answers) t''

/-- Every question about the agenda is answered from the table. -/
structure Agrees (q : Agenda) (t : Table) : Prop where
  size : q.size = t.size
  isEmpty : q.isEmpty = t.isEmpty
  contains : ∀ counter, q.contains counter = t.contains counter
  peek : ∃ first, q.peek = .ok first ∧ (first = none ↔ t.isEmpty = true) ∧
    ∀ ob, first = some ob ↔ t.First ob
  toList : ∃ obs, q.toList = .ok obs ∧ obs.Perm t.obligations
  drain : ∃ (obs : List Obligation) (q' : Agenda),
    play (List.replicate q.size .pop) q = .ok (obs.map .taken, q') ∧ q'.isEmpty = true ∧
      obs.Perm t.obligations ∧ obs.Pairwise Obligation.Leads

end Agenda

namespace Table

variable {t : Table}

theorem get?_restrict {keep : Obligation → Bool} {c : Formula} {ob : Obligation} :
    (t.restrict keep).get? c = some ob ↔ t.get? c = some ob ∧ keep ob = true := by
  rw [← FormulaMap.mem_entries, ← FormulaMap.mem_entries]
  exact List.mem_filter

theorem get?_erase_eq_some {c c' : Formula} {ob : Obligation} :
    (t.erase c').get? c = some ob ↔ c ≠ c' ∧ t.get? c = some ob := by
  rw [FormulaMap.get?_erase]
  split
  next h => simp [h]
  next h => simp [h]

theorem mem_obligations {ob : Obligation} :
    ob ∈ t.obligations ↔ ∃ c, t.get? c = some ob := by
  rw [obligations, List.mem_map]
  constructor
  · rintro ⟨⟨c, ob'⟩, h, rfl⟩
    exact ⟨c, FormulaMap.mem_entries.mp h⟩
  · rintro ⟨c, h⟩
    exact ⟨(c, ob), FormulaMap.mem_entries.mpr h, rfl⟩

theorem length_obligations (t : Table) : t.obligations.length = t.size := List.length_map ..

theorem isEmpty_iff_size (t : Table) : t.isEmpty = true ↔ t.size = 0 := by
  simp [FormulaMap.isEmpty, FormulaMap.size]

theorem First.unique {a b : Obligation} (ha : t.First a) (hb : t.First b) : a = b := by
  by_cases hc : b.counter = a.counter
  · exact Option.some.inj (ha.1.symm.trans (hc ▸ hb.1))
  · have hab := Obligation.leads_iff.mp (ha.2 hb.1 hc)
    have hba := Obligation.leads_iff.mp (hb.2 ha.1 (Ne.symm hc))
    exact absurd hba hab.not_precedes

end Table

namespace Agenda

variable {q q' : Agenda} {t t' : Table}

structure Refines (q : Agenda) (t : Table) : Prop where
  valid : q.Valid
  find?_eq : ∀ c, q.find? c = t.get? c

theorem empty_refines : empty.Refines .empty := ⟨empty_valid, fun _ => rfl⟩

/-- The table that an agenda stands for. -/
def table (q : Agenda) : Table := .ofList (q.bySlot.map fun ob => (ob.counter, ob))

theorem Valid.refines_table (hq : q.Valid) : q.Refines q.table := by
  have hkeys : ((q.bySlot.map fun ob => (ob.counter, ob)).map Prod.fst).Nodup := by
    rw [List.map_map]
    exact hq.nodup_bySlot
  refine ⟨hq, fun c => Option.ext fun ob => ?_⟩
  rw [table, FormulaMap.get?_ofList hkeys, List.mem_map]
  constructor
  · intro h
    have hc := hq.counter_eq h
    exact ⟨ob, hq.mem_bySlot_iff.mpr (hc ▸ h), by rw [hc]⟩
  · rintro ⟨ob', h, heq⟩
    cases heq
    exact hq.mem_bySlot_iff.mp h

namespace Refines

theorem counter_eq (h : q.Refines t) {c : Formula} {ob : Obligation} (hc : t.get? c = some ob) :
    ob.counter = c :=
  h.valid.counter_eq ((h.find?_eq c).trans hc)

theorem find?_iff (h : q.Refines t) {ob : Obligation} :
    q.find? ob.counter = some ob ↔ ob ∈ t.obligations := by
  rw [Table.mem_obligations, h.find?_eq]
  constructor
  · exact fun hob => ⟨ob.counter, hob⟩
  · rintro ⟨c, hob⟩
    rwa [h.counter_eq hob]

theorem nodup_obligations (h : q.Refines t) : (t.obligations.map (·.counter)).Nodup := by
  have hkeys : t.obligations.map (·.counter) = t.keys := by
    rw [Table.obligations, FormulaMap.keys, List.map_map]
    exact List.map_congr_left fun x hx => h.counter_eq (FormulaMap.mem_entries.mp hx)
  rw [hkeys]
  exact FormulaMap.keys_nodup t

theorem perm_obligations (h : q.Refines t) {obs : List Obligation}
    (hnodup : (obs.map (·.counter)).Nodup)
    (hmem : ∀ ob, q.find? ob.counter = some ob ↔ ob ∈ obs) : obs.Perm t.obligations :=
  (List.perm_ext_iff_of_nodup (nodup_of_counters hnodup)
    (nodup_of_counters h.nodup_obligations)).mpr fun ob => by rw [← hmem, h.find?_iff]

theorem obligations_erase (h : q.Refines t) {ob : Obligation} (hob : t.get? ob.counter = some ob) :
    (ob :: Table.obligations (t.erase ob.counter)).Perm t.obligations := by
  refine h.perm_obligations (List.nodup_cons.mpr ⟨fun hin => ?_, ?_⟩) fun other => ?_
  · obtain ⟨other, hother, hc⟩ := List.mem_map.mp hin
    obtain ⟨c, hget⟩ := Table.mem_obligations.mp hother
    obtain ⟨hne, hget⟩ := Table.get?_erase_eq_some.mp hget
    exact hne ((h.counter_eq hget).symm.trans hc)
  · exact h.nodup_obligations.sublist ((List.filter_sublist.map Prod.snd).map _)
  · rw [h.find?_iff, List.mem_cons, Table.mem_obligations, Table.mem_obligations]
    constructor
    · rintro ⟨c, hget⟩
      by_cases hc : c = ob.counter
      · exact Or.inl (Option.some.inj (hget.symm.trans (hc ▸ hob)))
      · exact Or.inr ⟨c, Table.get?_erase_eq_some.mpr ⟨hc, hget⟩⟩
    · rintro (rfl | ⟨c, hget⟩)
      · exact ⟨_, hob⟩
      · exact ⟨c, (Table.get?_erase_eq_some.mp hget).2⟩

theorem obligations_eq_listed (h : q.Refines t) :
    ∃ obs, q.toList = .ok obs ∧ obs.Perm t.obligations ∧ q.size = t.size := by
  obtain ⟨obs, hobs, hlength, hnodup, hmem⟩ := h.valid.toList_eq
  have hperm := h.perm_obligations hnodup fun ob => hmem.symm
  refine ⟨obs, hobs, hperm, ?_⟩
  rw [← hlength, hperm.length_eq, t.length_obligations]

theorem size_eq (h : q.Refines t) : q.size = t.size := by
  obtain ⟨_, _, _, hsize⟩ := h.obligations_eq_listed
  exact hsize

theorem length_bySlot (h : q.Refines t) : q.bySlot.length = t.size := by
  rw [(h.perm_obligations h.valid.nodup_bySlot fun ob => h.valid.mem_bySlot_iff.symm).length_eq,
    t.length_obligations]

theorem isEmpty_eq (h : q.Refines t) : q.isEmpty = t.isEmpty := by
  refine Bool.eq_iff_iff.mpr ?_
  rw [t.isEmpty_iff_size, ← h.size_eq]
  simp [Agenda.isEmpty, Agenda.size]

theorem contains_eq (h : q.Refines t) (c : Formula) : q.contains c = t.contains c := by
  refine Bool.eq_iff_iff.mpr ?_
  rw [h.valid.contains_iff, FormulaMap.contains_iff, h.find?_eq]

theorem first_of_not_precedes (h : q.Refines t) {ob : Obligation}
    (hob : q.find? ob.counter = some ob)
    (hmost : ∀ {c other}, q.find? c = some other → ¬ other.Precedes ob) : t.First ob := by
  refine ⟨(h.find?_eq _).symm.trans hob, fun {c other} hother hne => ?_⟩
  have hfound := (h.find?_eq c).trans hother
  rw [← h.counter_eq hother] at hne
  exact Obligation.leads_iff.mpr
    ((Obligation.precedes_or_precedes (Ne.symm hne)).resolve_right (hmost hfound))

theorem peek_eq (h : q.Refines t) :
    ∃ first, q.peek = .ok first ∧ (first = none ↔ t.isEmpty = true) ∧
      ∀ ob, first = some ob ↔ t.First ob := by
  rw [Agenda.peek, ← h.isEmpty_eq]
  cases hempty : q.isEmpty with
  | true =>
      refine ⟨none, rfl, by simp, fun ob => ⟨nofun, fun hob => ?_⟩⟩
      have hfound := (h.find?_eq _).trans hob.1
      rw [h.valid.isEmpty_iff.mp hempty] at hfound
      cases hfound
  | false =>
      have hpos : 0 < q.size := by
        rw [Agenda.isEmpty, Array.isEmpty_eq_false_iff] at hempty
        exact Array.size_pos_iff.mpr hempty
      have hfirst : t.First (q.item 0) :=
        h.first_of_not_precedes (h.valid.item_mem hpos) fun hc => by
          obtain ⟨i, hi, rfl⟩ := h.valid.exists_item hc
          exact h.valid.ordered.root i hi
      refine ⟨some (q.item 0), ?_, by simp, fun ob => ?_⟩
      · rw [if_neg (by simp), h.valid.linked.entry_eq hpos]
        rfl
      · rw [Option.some_inj]
        exact ⟨fun heq => heq ▸ hfirst, fun hob => hfirst.unique hob⟩

theorem push (h : q.Refines t) {ob : Obligation} (hnew : q.contains ob.counter = false) :
    ∃ slot q', q.push ob = .ok (slot, q') ∧ q'.Refines (t.insert ob.counter ob) := by
  obtain ⟨slot, q', hpush, hq', _, hfind⟩ :=
    push_eq h.valid (h.valid.contains_eq_false.mp hnew)
  refine ⟨slot, q', hpush, hq', fun c => ?_⟩
  rw [hfind, FormulaMap.get?_insert, h.find?_eq]

theorem pop (h : q.Refines t) (hsome : q.isEmpty = false) :
    ∃ ob q', q.pop = .ok (ob, q') ∧ t.First ob ∧ q'.size + 1 = q.size ∧
      q'.Refines (t.erase ob.counter) := by
  obtain ⟨ob, q', hpop, hq', hsize, hfound, hmost, hfind⟩ := pop_eq h.valid hsome
  refine ⟨ob, q', hpop, h.first_of_not_precedes hfound hmost, hsize, hq', fun c => ?_⟩
  rw [hfind, FormulaMap.get?_erase, h.find?_eq]

theorem bump (h : q.Refines t) (counter : Formula) (amount : Score) :
    ∃ found q' t', q.bump counter amount = .ok (found, q') ∧
      Turn (.bump counter amount) t (.bumped found) t' ∧ q'.Refines t' := by
  obtain ⟨q', hbump, hq', _, hfind⟩ := bump_eq h.valid counter amount
  cases hob : t.get? counter with
  | none =>
      have hmiss : t.contains counter = false := FormulaMap.contains_eq_false.mpr hob
      refine ⟨_, q', t, hbump, ?_, hq', fun c => ?_⟩
      · rw [h.contains_eq, hmiss]
        exact .miss hmiss
      · rw [hfind, h.find?_eq]
        split
        next hc => rw [hc, hob]; rfl
        next => rfl
  | some ob =>
      have hhit : t.contains counter = true := FormulaMap.contains_iff.mpr ⟨ob, hob⟩
      refine ⟨_, q', t.insert counter (ob.bump amount), hbump, ?_, hq', fun c => ?_⟩
      · rw [h.contains_eq, hhit]
        exact .bump hob
      · rw [hfind, FormulaMap.get?_insert, h.find?_eq]
        split
        next hc => rw [hc, hob]; rfl
        next => rfl

theorem relocate (h : q.Refines t) (r : Relocation) :
    ∃ lost q' t', q.relocate r = .ok (lost, q') ∧
      Turn (.relocate r) t (.dropped lost) t' ∧ q'.Refines t' := by
  obtain ⟨lost, q', hrelocate, hq', hcount, hfind⟩ := relocate_eq q r
  have h' := hq'.refines_table
  have hbySlot : ∀ {ob}, ob ∈ q.bySlot ↔ ∃ c, t.get? c = some ob := fun {ob} => by
    rw [h.valid.mem_bySlot_iff, h.find?_iff, Table.mem_obligations]
  refine ⟨lost, q', q'.table, hrelocate, .relocate ⟨fun {c ob'} hc => ?_, ?_⟩ ?_, h'⟩
  · refine ⟨h'.counter_eq hc, ?_⟩
    rw [← h'.find?_eq, hfind] at hc
    obtain ⟨ob, hob, hmoved⟩ := List.mem_filterMap.mp (List.mem_of_find?_eq_some hc)
    obtain ⟨c₀, hc₀⟩ := hbySlot.mp hob
    exact ⟨c₀, ob, hc₀, hmoved⟩
  · intro c₀ ob ob' hc₀ hmoved
    rw [← h'.contains_eq, hq'.contains_iff]
    refine Option.isSome_iff_exists.mp ?_
    rw [hfind, List.find?_isSome]
    exact ⟨ob', List.mem_filterMap.mpr ⟨ob, hbySlot.mpr ⟨c₀, hc₀⟩, hmoved⟩, by simp⟩
  · rw [← h'.size_eq, hcount, h.length_bySlot]

theorem ofList {obs : List Obligation} (hnodup : (obs.map (·.counter)).Nodup)
    (hkey : ∀ {c ob}, t.get? c = some ob → ob.counter = c)
    (hmem : ∀ {ob}, t.get? ob.counter = some ob ↔ ob ∈ obs) :
    ∃ q, Agenda.ofList obs = .ok q ∧ q.size = obs.length ∧ q.Refines t := by
  obtain ⟨q, hlist, hq, hsize, hfind⟩ := ofList_eq hnodup
  refine ⟨q, hlist, hsize, hq, fun c => Option.ext fun ob => ?_⟩
  constructor
  · intro hc
    obtain rfl := hq.counter_eq hc
    exact hmem.mpr (hfind.mp hc)
  · intro hc
    obtain rfl := hkey hc
    exact hfind.mpr (hmem.mp hc)

theorem mem_bySlot (h : q.Refines t) {ob : Obligation} :
    t.get? ob.counter = some ob ↔ ob ∈ q.bySlot := by
  rw [h.valid.mem_bySlot_iff, h.find?_eq]

theorem retain (h : q.Refines t) (keep : Obligation → Bool) :
    ∃ lost q', q.retain keep = .ok (lost, q') ∧ lost + (t.restrict keep).size = t.size ∧
      q'.Refines (t.restrict keep) := by
  have hnodup : ((q.bySlot.filter keep).map (·.counter)).Nodup :=
    h.valid.nodup_bySlot.sublist (List.filter_sublist.map _)
  obtain ⟨q', hlist, hsize, h'⟩ := ofList (t := t.restrict keep) hnodup
    (fun hc => h.counter_eq (Table.get?_restrict.mp hc).1) fun {ob} => by
      rw [Table.get?_restrict, List.mem_filter, h.mem_bySlot]
  refine ⟨q.bySlot.length - q'.size, q', ?_, ?_, h'⟩
  · rw [Agenda.retain, hlist]
    rfl
  · have hle : q'.size ≤ q.bySlot.length := hsize ▸ List.length_filter_le ..
    rw [← h'.size_eq, ← h.length_bySlot]
    omega

/-- One operation: it does not fail, and it does and answers what the table says. -/
theorem perform (h : q.Refines t) {op : Operation} (hallow : q.allows op = true) :
    ∃ answer q' t', q.perform op = .ok (answer, q') ∧ Turn op t answer t' ∧ q'.Refines t' := by
  cases op with
  | push ob =>
      have hnew : q.contains ob.counter = false := by simpa [allows] using hallow
      obtain ⟨slot, q', hpush, h'⟩ := h.push hnew
      refine ⟨.done, q', _, ?_, .push ((h.contains_eq _).symm.trans hnew), h'⟩
      rw [Agenda.perform, hpush]
      rfl
  | pop =>
      have hsome : q.isEmpty = false := by simpa [allows] using hallow
      obtain ⟨ob, q', hpop, hfirst, _, h'⟩ := h.pop hsome
      refine ⟨.taken ob, q', _, ?_, .pop hfirst, h'⟩
      rw [Agenda.perform, hpop]
      rfl
  | bump counter amount =>
      obtain ⟨found, q', t', hbump, hstep, h'⟩ := h.bump counter amount
      refine ⟨.bumped found, q', t', ?_, hstep, h'⟩
      rw [Agenda.perform, hbump]
      rfl
  | clear => exact ⟨.done, empty, .empty, rfl, .clear, empty_refines⟩
  | relocate r =>
      obtain ⟨lost, q', t', hrelocate, hstep, h'⟩ := h.relocate r
      refine ⟨.dropped lost, q', t', ?_, hstep, h'⟩
      rw [Agenda.perform, hrelocate]
      rfl
  | retain keep =>
      obtain ⟨lost, q', hretain, hcount, h'⟩ := h.retain keep
      refine ⟨.dropped lost, q', _, ?_, .retain hcount, h'⟩
      rw [Agenda.perform, hretain]
      rfl

/-- A whole run, from any agenda and the table it stands for. -/
theorem play : ∀ {ops : List Operation} {q : Agenda} {t : Table}, q.Refines t →
    legal ops q = true → ∃ answers q' t', Agenda.play ops q = .ok (answers, q') ∧
      Turns ops t answers t' ∧ q'.Refines t'
  | [], q, t, h, _ => ⟨[], q, t, rfl, .nil, h⟩
  | op :: ops, q, t, h, hlegal => by
      obtain ⟨hallow, hrest⟩ := Bool.and_eq_true_iff.mp hlegal
      obtain ⟨answer, q₁, t₁, hop, hstep, h₁⟩ := h.perform hallow
      rw [hop] at hrest
      obtain ⟨answers, q', t', hplay, hsteps, h'⟩ := h₁.play hrest
      refine ⟨answer :: answers, q', t', ?_, .cons hstep hsteps, h'⟩
      rw [Agenda.play, hop]
      simp only [bind, Except.bind, hplay]
      rfl

theorem drain : ∀ {n : Nat} {q : Agenda} {t : Table}, q.Refines t → q.size = n →
    ∃ (obs : List Obligation) (q' : Agenda),
      Agenda.play (List.replicate n .pop) q = .ok (obs.map .taken, q') ∧ q'.isEmpty = true ∧
      obs.Perm t.obligations ∧ obs.Pairwise Obligation.Leads
  | 0, q, t, h, hsize => by
      have hnone : t.obligations = [] := by
        rw [← List.length_eq_zero_iff, t.length_obligations, ← h.size_eq, hsize]
      refine ⟨[], q, rfl, ?_, hnone ▸ .nil, .nil⟩
      rw [h.isEmpty_eq, t.isEmpty_iff_size, ← h.size_eq, hsize]
  | n + 1, q, t, h, hsize => by
      have hsome : q.isEmpty = false := by
        rw [h.isEmpty_eq, Bool.eq_false_iff, Ne, t.isEmpty_iff_size, ← h.size_eq, hsize]
        omega
      obtain ⟨ob, q₁, hpop, hfirst, hsize₁, h₁⟩ := h.pop hsome
      obtain ⟨obs, q', hplay, hempty, hperm, hlead⟩ := h₁.drain (n := n) (by omega)
      refine ⟨ob :: obs, q', ?_, hempty, (hperm.cons ob).trans (h.obligations_erase hfirst.1),
        List.pairwise_cons.mpr ⟨fun other hother => ?_, hlead⟩⟩
      · rw [List.replicate_succ, Agenda.play, Agenda.perform, hpop]
        simp only [bind, Except.bind, pure, Except.pure, hplay]
        rfl
      · obtain ⟨c, hc⟩ := Table.mem_obligations.mp (hperm.mem_iff.mp hother)
        obtain ⟨hne, hc⟩ := Table.get?_erase_eq_some.mp hc
        exact hfirst.2 hc hne

theorem agrees (h : q.Refines t) : Agrees q t where
  size := h.size_eq
  isEmpty := h.isEmpty_eq
  contains := h.contains_eq
  peek := h.peek_eq
  toList := by
    obtain ⟨obs, hobs, hperm, _⟩ := h.obligations_eq_listed
    exact ⟨obs, hobs, hperm⟩
  drain := h.drain rfl

end Refines

theorem Valid.length_waiting (hq : q.Valid) : q.waiting.length = q.size := by
  rw [waiting, List.length_map, hq.refines_table.length_bySlot, ← hq.refines_table.size_eq]

/-- From the empty agenda on, no access fails and every answer is the table's. -/
theorem play_refines {ops : List Operation} (h : legal ops empty = true) :
    ∃ answers q t, play ops empty = .ok (answers, q) ∧ Turns ops .empty answers t ∧
      Agrees q t := by
  obtain ⟨answers, q, t, hplay, hsteps, hq⟩ := empty_refines.play h
  exact ⟨answers, q, t, hplay, hsteps, hq.agrees⟩

/-- Three obligations pushed, one of them bumped, one popped, two merged by a relocation and one
dropped again. -/
def errands : List Operation :=
  [.push ⟨⟨11⟩, ⟨1⟩, 1, .zero⟩, .push ⟨⟨12⟩, ⟨2⟩, 0, .one⟩, .push ⟨⟨13⟩, ⟨3⟩, 2, .zero⟩,
    .bump ⟨1⟩ .one, .bump ⟨9⟩ .one, .pop, .push ⟨⟨12⟩, ⟨2⟩, 3, .one⟩,
    .relocate ((Relocation.move {} ⟨3⟩ ⟨2⟩).move ⟨11⟩ ⟨4⟩), .retain fun ob => ob.depth = 1, .pop,
    .clear, .push ⟨⟨5⟩, ⟨6⟩, 0, .zero⟩]

theorem errands_refine : legal errands empty = true ∧
    ∃ answers q t, play errands empty = .ok (answers, q) ∧ Turns errands .empty answers t ∧
      Agrees q t :=
  ⟨by decide +kernel, play_refines (by decide +kernel)⟩

end Agenda

end Invariance
