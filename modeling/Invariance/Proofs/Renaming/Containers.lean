import Invariance.Proofs.Renaming.Maps

/-!
Relocating the containers of a search. Each of them is rewritten at once: what is kept is kept under
the new names, what mentions a collected formula is gone, and every question about a formula that
survives is answered as before. Two relocations one after another do what their composition does.
Main statement: both hold for every frame, every lineage and every agenda that operations can build,
as long as no two stored formulas that survive get one name.
-/

namespace Invariance

variable {r r₁ r₂ : Relocation} {f g k : Formula} {fs : List Formula}

namespace FormulaSet

variable {s t : FormulaSet}

theorem ext_contains (h : ∀ f, s.contains f = t.contains f) : s = t := by
  refine FormulaMap.ext_get? fun f => ?_
  have hf := h f
  rw [FormulaMap.contains, FormulaMap.contains] at hf
  cases hs : FormulaMap.get? s f <;> cases ht : FormulaMap.get? t f <;> simp_all

theorem relocate_relocate (s : FormulaSet) (r₁ r₂ : Relocation) :
    (s.relocate r₁).relocate r₂ = s.relocate (r₁.andThen r₂) := by
  refine ext_contains fun k => Bool.eq_iff_iff.mpr ?_
  simp only [contains_relocate, Relocation.apply_andThen, Option.bind_eq_some_iff]
  constructor
  · rintro ⟨g, ⟨f, hf, hfg⟩, hgk⟩
    exact ⟨f, hf, g, hfg, hgk⟩
  · rintro ⟨f, hf, g, hfg, hgk⟩
    exact ⟨g, ⟨f, hf, hfg⟩, hgk⟩

theorem contains_relocate_of_apply (hs : ∀ {f}, s.contains f = true → f ∈ fs)
    (hr : r.InjectiveOn fs) (hf : f ∈ fs) (hg : r.apply f = some g) :
    (s.relocate r).contains g = s.contains f := by
  refine Bool.eq_iff_iff.mpr ⟨fun h => ?_, fun h => contains_relocate.mpr ⟨f, h, hg⟩⟩
  obtain ⟨f', hf', hfg⟩ := contains_relocate.mp h
  exact hr.eq (hs hf') hf hfg hg ▸ hf'

end FormulaSet

namespace Frame

variable {frame frame' : Frame}

def stored (frame : Frame) : List Formula := frame.members.toList ++ frame.intermediate.toList

structure Renamed (r : Relocation) (frame frame' : Frame) : Prop where
  contains : ∀ {f g}, f ∈ frame.stored → r.apply f = some g → frame'.contains g = frame.contains f
  intermediate : ∀ {f g}, f ∈ frame.stored → r.apply f = some g →
    frame'.intermediate.contains g = frame.intermediate.contains f
  /-- What is collected leaves nothing behind. -/
  comes : ∀ {g}, frame'.contains g = true → ∃ f, frame.contains f = true ∧ r.apply f = some g
  comes_intermediate : ∀ {g}, frame'.intermediate.contains g = true →
    ∃ f, frame.intermediate.contains f = true ∧ r.apply f = some g

theorem mem_stored : f ∈ frame.stored ↔
    frame.contains f = true ∨ frame.intermediate.contains f = true := by
  rw [stored, List.mem_append, FormulaSet.mem_toList, FormulaSet.mem_toList]
  rfl

theorem relocate_renamed (hr : r.InjectiveOn frame.stored) :
    frame.Renamed r (frame.relocate r) where
  contains := FormulaSet.contains_relocate_of_apply (fun h => mem_stored.mpr (.inl h)) hr
  intermediate := FormulaSet.contains_relocate_of_apply (fun h => mem_stored.mpr (.inr h)) hr
  comes := FormulaSet.contains_relocate.mp
  comes_intermediate := FormulaSet.contains_relocate.mp

theorem relocate_relocate (frame : Frame) (r₁ r₂ : Relocation) :
    (frame.relocate r₁).relocate r₂ = frame.relocate (r₁.andThen r₂) := by
  simp only [relocate, FormulaSet.relocate_relocate]

end Frame

namespace Obligation

theorem relocate_andThen (ob : Obligation) (r₁ r₂ : Relocation) :
    ob.relocate (r₁.andThen r₂) = (ob.relocate r₁).bind (·.relocate r₂) := by
  cases hf : r₁.apply ob.forward <;> cases hc : r₁.apply ob.counter <;>
    simp [relocate, Relocation.apply_andThen, hf, hc]

end Obligation

theorem Origin.relocate_andThen (o : Origin) (r₁ r₂ : Relocation) :
    o.relocate (r₁.andThen r₂) = (o.relocate r₁).bind (·.relocate r₂) := by
  cases hg : r₁.apply o.refutes <;> cases hp : r₁.apply o.parent <;>
    simp [relocate, Relocation.apply_andThen, hg, hp]

namespace Table

variable {t t' : Table}

def along (r : Relocation) (x : Formula × Obligation) : Option (Formula × Obligation) :=
  (x.2.relocate r).map fun ob => (ob.counter, ob)

theorem along_eq_some {c c' : Formula} {ob ob' : Obligation} :
    along r (c, ob) = some (c', ob') ↔ ob.relocate r = some ob' ∧ ob'.counter = c' := by
  rw [along, Option.map_eq_some_iff]
  constructor
  · rintro ⟨ob', hob, heq⟩
    obtain ⟨rfl, rfl⟩ := Prod.mk.inj heq
    exact ⟨hob, rfl⟩
  · rintro ⟨hob, rfl⟩
    exact ⟨ob', hob, rfl⟩

theorem along_andThen (r₁ r₂ : Relocation) :
    along (r₁.andThen r₂) = fun x => (along r₁ x).bind (along r₂) := by
  funext x
  rw [along, Obligation.relocate_andThen, along]
  cases x.2.relocate r₁ <;> rfl

/-- Where no two obligations end on one counter-state, none of them is merged away. -/
theorem Relocates.eq_rekey (h : t.Relocates r t') (hapart : t.Apart (along r)) :
    t' = t.rekey (along r) := by
  refine FormulaMap.ext_get? fun c => Option.ext fun ob' => ?_
  rw [FormulaMap.get?_rekey hapart]
  constructor
  · intro hc
    obtain ⟨hcounter, c₀, ob, hob, hmoved⟩ := h.comes hc
    exact ⟨c₀, ob, hob, along_eq_some.mpr ⟨hmoved, hcounter⟩⟩
  · rintro ⟨c₀, ob, hob, hmove⟩
    obtain ⟨hmoved, rfl⟩ := along_eq_some.mp hmove
    obtain ⟨ob'', hob''⟩ := FormulaMap.contains_iff.mp (h.stays hob hmoved)
    obtain ⟨hcounter, c₁, ob₁, hob₁, hmoved₁⟩ := h.comes hob''
    obtain rfl := hapart hob hob₁ hmove (along_eq_some.mpr ⟨hmoved₁, hcounter⟩)
    obtain rfl := Option.some.inj (hob.symm.trans hob₁)
    obtain rfl := Option.some.inj (hmoved₁.symm.trans hmoved)
    exact hob''

end Table

namespace Lineage

variable {l l' : Lineage} {o o' : Origin}

def stored (l : Lineage) : List Formula :=
  (l.origins.entries.flatMap fun x => [x.1, x.2.parent, x.2.refutes]) ++ l.invalid.keys ++
    l.properties.toList

structure Renamed (r : Relocation) (l l' : Lineage) : Prop where
  kept : ∀ {learnt o learnt' parent' refutes'}, l.origin? learnt = some o →
    r.apply learnt = some learnt' → r.apply o.parent = some parent' →
    r.apply o.refutes = some refutes' → l'.origin? learnt' = some ⟨parent', refutes', o.depth⟩
  /-- An entry is lost to its parent and to what it refutes, not to its own formula alone. -/
  lost : ∀ {learnt o learnt'}, l.origin? learnt = some o → r.apply learnt = some learnt' →
    r.apply o.parent = none ∨ r.apply o.refutes = none → l'.origin? learnt' = none
  unlearnt : ∀ {f g}, f ∈ l.stored → r.apply f = some g → l.origin? f = none →
    l'.origin? g = none
  comes : ∀ {learnt' o'}, l'.origin? learnt' = some o' → ∃ learnt o, l.origin? learnt = some o ∧
    r.apply learnt = some learnt' ∧ r.apply o.parent = some o'.parent ∧
    r.apply o.refutes = some o'.refutes ∧ o'.depth = o.depth
  invalidFrame? : ∀ {f g}, f ∈ l.stored → r.apply f = some g →
    l'.invalidFrame? g = l.invalidFrame? f
  comes_invalid : ∀ {g frame}, l'.invalidFrame? g = some frame →
    ∃ f, l.invalidFrame? f = some frame ∧ r.apply f = some g
  isProperty : ∀ {f g}, f ∈ l.stored → r.apply f = some g → l'.isProperty g = l.isProperty f
  comes_property : ∀ {g}, l'.isProperty g = true → ∃ f, l.isProperty f = true ∧ r.apply f = some g
  propertyInvalid : l'.propertyInvalid = l.propertyInvalid

theorem mem_stored : f ∈ l.stored ↔
    (∃ learnt o, l.origin? learnt = some o ∧ (f = learnt ∨ f = o.parent ∨ f = o.refutes)) ∨
      l.isInvalid f = true ∨ l.isProperty f = true := by
  simp [stored, FormulaMap.mem_entries, FormulaMap.mem_keys, FormulaSet.mem_toList,
    origin?, isInvalid, isProperty]

def alongOrigin (r : Relocation) (x : Formula × Origin) : Option (Formula × Origin) := do
  return (← r.apply x.1, ← x.2.relocate r)

def alongMark (r : Relocation) (x : Formula × Nat) : Option (Formula × Nat) := do
  return (← r.apply x.1, x.2)

theorem relocate_eq (l : Lineage) (r : Relocation) :
    l.relocate r = ⟨l.origins.rekey (alongOrigin r), l.invalid.rekey (alongMark r),
      l.properties.relocate r, l.propertyInvalid⟩ := rfl

theorem alongOrigin_eq_some : alongOrigin r (f, o) = some (g, o') ↔
    r.apply f = some g ∧ o.relocate r = some o' := by
  simp [alongOrigin, Option.bind_eq_some_iff]

theorem alongMark_eq_some {frame frame' : Nat} : alongMark r (f, frame) = some (g, frame') ↔
    r.apply f = some g ∧ frame = frame' := by
  simp [alongMark, Option.bind_eq_some_iff]

theorem origins_along (l : Lineage) (r : Relocation) :
    l.origins.Along l.stored r (alongOrigin r) where
  stored hf := by
    obtain ⟨o, ho⟩ := FormulaMap.contains_iff.mp hf
    exact mem_stored.mpr (.inl ⟨_, o, ho, .inl rfl⟩)
  along _ hmove := (alongOrigin_eq_some.mp hmove).1

theorem invalid_along (l : Lineage) (r : Relocation) :
    l.invalid.Along l.stored r (alongMark r) where
  stored hf := mem_stored.mpr (.inr (.inl hf))
  along _ hmove := (alongMark_eq_some.mp hmove).1

theorem alongOrigin_andThen (r₁ r₂ : Relocation) :
    (fun x => (alongOrigin r₁ x).bind (alongOrigin r₂)) = alongOrigin (r₁.andThen r₂) := by
  funext x
  cases hf : r₁.apply x.1 <;> cases ho : x.2.relocate r₁ <;>
    simp [alongOrigin, Origin.relocate_andThen, Relocation.apply_andThen, hf, ho]

theorem alongMark_andThen (r₁ r₂ : Relocation) :
    (fun x => (alongMark r₁ x).bind (alongMark r₂)) = alongMark (r₁.andThen r₂) := by
  funext x
  cases hf : r₁.apply x.1 <;> simp [alongMark, Relocation.apply_andThen, hf]

section

variable (hr : r.InjectiveOn l.stored) (hf : f ∈ l.stored) (hg : r.apply f = some g)

include hr hf hg

theorem origin?_relocate_of_apply :
    (l.relocate r).origin? g = (l.origin? f).bind (·.relocate r) := by
  refine ((l.origins_along r).get?_rekey_of_apply hr hf hg).trans
    (Option.bind_congr fun o _ => Option.ext fun o' => ?_)
  rw [Option.map_eq_some_iff]
  constructor
  · rintro ⟨⟨g', o'⟩, hmove, rfl⟩
    exact (alongOrigin_eq_some.mp hmove).2
  · exact fun ho => ⟨(g, o'), alongOrigin_eq_some.mpr ⟨hg, ho⟩, rfl⟩

theorem invalidFrame?_relocate_of_apply :
    (l.relocate r).invalidFrame? g = l.invalidFrame? f := by
  refine ((l.invalid_along r).get?_rekey_of_apply hr hf hg).trans ?_
  simp [alongMark, hg, invalidFrame?]

end

theorem relocate_renamed (hr : r.InjectiveOn l.stored) : l.Renamed r (l.relocate r) := by
  have hlearnt : ∀ {f o}, l.origin? f = some o → f ∈ l.stored := (l.origins_along r).mem
  refine ⟨fun {learnt o learnt' parent' refutes'} ho hf hp hg => ?_,
    fun {learnt o learnt'} ho hf hlost => ?_, fun {f g} hf hg hnone => ?_,
    fun {learnt' o'} ho' => ?_, invalidFrame?_relocate_of_apply hr, fun {g frame} hg => ?_,
    FormulaSet.contains_relocate_of_apply (fun h => mem_stored.mpr (.inr (.inr h))) hr,
    FormulaSet.contains_relocate.mp, rfl⟩
  · rw [origin?_relocate_of_apply hr (hlearnt ho) hf, ho]
    exact Origin.relocate_eq_some.mpr ⟨hg, hp, rfl⟩
  · rw [origin?_relocate_of_apply hr (hlearnt ho) hf, ho]
    refine Option.eq_none_iff_forall_ne_some.mpr fun o' ho' => ?_
    obtain ⟨hg, hp, _⟩ := Origin.relocate_eq_some.mp ho'
    rcases hlost with h | h
    · cases h.symm.trans hp
    · cases h.symm.trans hg
  · rw [origin?_relocate_of_apply hr hf hg, hnone]
    rfl
  · obtain ⟨f, o, ho, hmove⟩ := (FormulaMap.get?_rekey ((l.origins_along r).apart hr)).mp ho'
    obtain ⟨hf, ho₁⟩ := alongOrigin_eq_some.mp hmove
    obtain ⟨hg, hp, hdepth⟩ := Origin.relocate_eq_some.mp ho₁
    exact ⟨f, o, ho, hf, hp, hg, hdepth⟩
  · obtain ⟨f, frame', hf, hmove⟩ :=
      (FormulaMap.get?_rekey ((l.invalid_along r).apart hr)).mp hg
    obtain ⟨hfg, rfl⟩ := alongMark_eq_some.mp hmove
    exact ⟨f, hf, hfg⟩

theorem relocate_relocate (hr₁ : r₁.InjectiveOn l.stored)
    (hr : (r₁.andThen r₂).InjectiveOn l.stored) :
    (l.relocate r₁).relocate r₂ = l.relocate (r₁.andThen r₂) := by
  have horigins : (l.origins.rekey (alongOrigin r₁)).rekey (alongOrigin r₂) =
      l.origins.rekey (alongOrigin (r₁.andThen r₂)) := by
    rw [← alongOrigin_andThen]
    refine FormulaMap.rekey_rekey ((l.origins_along r₁).apart hr₁) ?_
    rw [alongOrigin_andThen]
    exact (l.origins_along _).apart hr
  have hinvalid : (l.invalid.rekey (alongMark r₁)).rekey (alongMark r₂) =
      l.invalid.rekey (alongMark (r₁.andThen r₂)) := by
    rw [← alongMark_andThen]
    refine FormulaMap.rekey_rekey ((l.invalid_along r₁).apart hr₁) ?_
    rw [alongMark_andThen]
    exact (l.invalid_along _).apart hr
  simp only [relocate_eq, horigins, hinvalid, FormulaSet.relocate_relocate]

end Lineage

namespace Agenda

variable {q q' : Agenda} {t : Table} {ob : Obligation}

/-- The agendas that operations build from the empty one. -/
def Reached (q : Agenda) : Prop := ∃ ops answers, play ops empty = .ok (answers, q)

def stored (q : Agenda) : List Formula := q.bySlot.flatMap fun ob => [ob.forward, ob.counter]

/-- An agenda is asked for an obligation by its counter-state. -/
structure Renamed (r : Relocation) (q q' : Agenda) : Prop where
  kept : ∀ {ob forward counter}, ob ∈ q.bySlot → r.apply ob.forward = some forward →
    r.apply ob.counter = some counter →
    q'.find? counter = some ⟨forward, counter, ob.depth, ob.score⟩
  lost : ∀ {ob counter}, ob ∈ q.bySlot → r.apply ob.forward = none →
    r.apply ob.counter = some counter → q'.find? counter = none
  contains : ∀ {f g}, f ∈ q.stored → r.apply f = some g →
    (q'.contains g = true ↔ ∃ ob ∈ q.bySlot, ob.counter = f ∧ (r.apply ob.forward).isSome = true)
  comes : ∀ {ob'}, ob' ∈ q'.bySlot → ∃ ob ∈ q.bySlot, r.apply ob.forward = some ob'.forward ∧
    r.apply ob.counter = some ob'.counter ∧ ob'.depth = ob.depth ∧ ob'.score = ob.score

/-- One relocation after the other against both at once. No access fails, and the two agendas that
are left hold the same obligations. -/
def Substitutes (r₁ r₂ : Relocation) (q : Agenda) : Prop :=
  ∃ lost₁ q₁ lost₂ q₂ lost q', q.relocate r₁ = .ok (lost₁, q₁) ∧ q₁.relocate r₂ = .ok (lost₂, q₂) ∧
    q.relocate (r₁.andThen r₂) = .ok (lost, q') ∧ q.Renamed r₁ q₁ ∧ lost₁ + q₁.size = q.size ∧
    lost₁ + lost₂ = lost ∧
    ∃ obs obs', q₂.toList = .ok obs ∧ q'.toList = .ok obs' ∧ obs.Perm obs'

theorem mem_stored : f ∈ q.stored ↔ ∃ ob ∈ q.bySlot, f = ob.forward ∨ f = ob.counter := by
  simp [stored]

namespace Refines

theorem along (h : q.Refines t) (r : Relocation) : t.Along q.stored r (Table.along r) where
  stored {c} hc := by
    obtain ⟨ob, hob⟩ := FormulaMap.contains_iff.mp hc
    obtain rfl := h.counter_eq hob
    exact mem_stored.mpr ⟨ob, h.mem_bySlot.mp hob, .inr rfl⟩
  along {c ob g ob'} hob hmove := by
    obtain ⟨hmoved, rfl⟩ := Table.along_eq_some.mp hmove
    obtain rfl := h.counter_eq hob
    exact (Obligation.relocate_eq_some.mp hmoved).2.1

theorem relocate_along (h : q.Refines t) (hapart : t.Apart (Table.along r)) :
    ∃ lost q', q.relocate r = .ok (lost, q') ∧ lost + q'.size = q.size ∧
      q'.Refines (t.rekey (Table.along r)) := by
  obtain ⟨lost, q', t', hrelocate, hturn, h'⟩ := h.relocate r
  cases hturn with
  | relocate hmoves hcount =>
      obtain rfl := hmoves.eq_rekey hapart
      exact ⟨lost, q', hrelocate, by rw [h.size_eq, h'.size_eq, hcount], h'⟩

theorem find?_along (h : q.Refines t) (hr : r.InjectiveOn q.stored)
    (h' : q'.Refines (t.rekey (Table.along r))) (hf : f ∈ q.stored) (hg : r.apply f = some g) :
    q'.find? g = (q.find? f).bind (·.relocate r) := by
  rw [h'.find?_eq, (h.along r).get?_rekey_of_apply hr hf hg, h.find?_eq]
  refine Option.bind_congr fun ob _ => ?_
  rw [Table.along, Option.map_map]
  exact Option.map_id'

theorem renamed (h : q.Refines t) (hr : r.InjectiveOn q.stored)
    (h' : q'.Refines (t.rekey (Table.along r))) : q.Renamed r q' := by
  have hown : ∀ {ob}, ob ∈ q.bySlot → ob.counter ∈ q.stored ∧ q.find? ob.counter = some ob :=
    fun {ob} hob => ⟨mem_stored.mpr ⟨ob, hob, .inr rfl⟩, h.valid.mem_bySlot_iff.mp hob⟩
  refine ⟨fun {ob forward counter} hob hf hc => ?_, fun {ob counter} hob hf hc => ?_,
    fun {f g} hf hg => ?_, fun {ob'} hob' => ?_⟩
  · rw [h.find?_along hr h' (hown hob).1 hc, (hown hob).2]
    exact Obligation.relocate_eq_some.mpr ⟨hf, hc, rfl, rfl⟩
  · rw [h.find?_along hr h' (hown hob).1 hc, (hown hob).2]
    simp [Obligation.relocate, hf]
  · rw [h'.valid.contains_iff, h.find?_along hr h' hf hg]
    simp only [Option.bind_eq_some_iff]
    constructor
    · rintro ⟨ob', ob, hob, hmoved⟩
      obtain rfl := h.valid.counter_eq hob
      refine ⟨ob, h.valid.mem_bySlot_iff.mpr hob, rfl, ?_⟩
      rw [(Obligation.relocate_eq_some.mp hmoved).1]
      rfl
    · rintro ⟨ob, hob, rfl, hforward⟩
      obtain ⟨forward, hforward⟩ := Option.isSome_iff_exists.mp hforward
      exact ⟨⟨forward, g, ob.depth, ob.score⟩, ob, (hown hob).2,
        Obligation.relocate_eq_some.mpr ⟨hforward, hg, rfl, rfl⟩⟩
  · obtain ⟨c, ob, hob, hmove⟩ :=
      (FormulaMap.get?_rekey ((h.along r).apart hr)).mp (h'.mem_bySlot.mpr hob')
    obtain rfl := h.counter_eq hob
    exact ⟨ob, h.mem_bySlot.mp hob, Obligation.relocate_eq_some.mp (Table.along_eq_some.mp hmove).1⟩

theorem toList_perm (h : q.Refines t) (h' : q'.Refines t) : ∃ obs obs',
    q.toList = .ok obs ∧ q'.toList = .ok obs' ∧ obs.Perm obs' := by
  obtain ⟨obs, hobs, hperm, _⟩ := h.obligations_eq_listed
  obtain ⟨obs', hobs', hperm', _⟩ := h'.obligations_eq_listed
  exact ⟨obs, obs', hobs, hobs', hperm.trans hperm'.symm⟩

end Refines

theorem Valid.perform {op : Operation} {answer : Answer} (hq : q.Valid)
    (h : q.perform op = .ok (answer, q')) : q'.Valid := by
  cases hallow : q.allows op with
  | true =>
      obtain ⟨_, _, _, hperform, _, h'⟩ := hq.refines_table.perform hallow
      rw [h] at hperform
      cases hperform
      exact h'.valid
  | false =>
      cases op with
      | push ob =>
          have hin : q.contains ob.counter = true := by simpa [allows] using hallow
          simp [Agenda.perform, Agenda.push, hin, bind, Except.bind] at h
      | pop =>
          have hempty : q.isEmpty = true := by simpa [allows] using hallow
          simp [Agenda.perform, Agenda.pop, hempty, bind, Except.bind] at h
      | bump | clear | relocate | retain => cases hallow

theorem Valid.play : ∀ {ops : List Operation} {q : Agenda} {answers : List Answer}, q.Valid →
    play ops q = .ok (answers, q') → q'.Valid
  | [], q, _, hq, h => by cases h; exact hq
  | op :: ops, q, _, hq, h => by
      obtain ⟨⟨answer, q₁⟩, hop, hrest⟩ := bind_eq_ok.mp h
      obtain ⟨⟨answers, q₂⟩, hplay, hend⟩ := bind_eq_ok.mp hrest
      cases hend
      exact (hq.perform hop).play hplay

theorem Reached.valid (h : q.Reached) : q.Valid := by
  obtain ⟨ops, answers, hplay⟩ := h
  exact empty_valid.play hplay

theorem Valid.relocate_relocate (hq : q.Valid) (hr₁ : r₁.InjectiveOn q.stored)
    (hr : (r₁.andThen r₂).InjectiveOn q.stored) : q.Substitutes r₁ r₂ := by
  have h := hq.refines_table
  have hapart : q.table.Apart (Table.along r₁) := (h.along r₁).apart hr₁
  have hall : q.table.Apart fun x => (Table.along r₁ x).bind (Table.along r₂) :=
    Table.along_andThen r₁ r₂ ▸ (h.along _).apart hr
  obtain ⟨lost₁, q₁, hq₁, hcount₁, h₁⟩ := h.relocate_along hapart
  obtain ⟨lost₂, q₂, hq₂, hcount₂, h₂⟩ := h₁.relocate_along (hapart.rekey hall)
  obtain ⟨lost, q', hq', hcount, h'⟩ := h.relocate_along ((h.along _).apart hr)
  rw [FormulaMap.rekey_rekey hapart hall, ← Table.along_andThen] at h₂
  refine ⟨lost₁, q₁, lost₂, q₂, lost, q', hq₁, hq₂, hq', h.renamed hr₁ h₁, hcount₁, ?_,
    h₂.toList_perm h'⟩
  have hsize := h₂.size_eq.trans h'.size_eq.symm
  omega

end Agenda

namespace Relocation

/-- Relocations compose as partial maps, and a list of moves takes no formula further than one step.
Where no two survivors get one name, frames, agendas and lineages are renamed at once. -/
theorem substitutes (r₁ r₂ : Relocation) :
    (∀ f, (r₁.andThen r₂).apply f = (r₁.apply f).bind r₂.apply) ∧
    (∀ moves : List (Formula × Formula), (moves.map Prod.fst).Nodup →
      ∀ f, (ofMoves moves).apply f = some ((moves.lookup f).getD f)) ∧
    (∀ frame : Frame, r₁.InjectiveOn frame.stored → frame.Renamed r₁ (frame.relocate r₁) ∧
      (frame.relocate r₁).relocate r₂ = frame.relocate (r₁.andThen r₂)) ∧
    (∀ q : Agenda, q.Reached → r₁.InjectiveOn q.stored →
      (r₁.andThen r₂).InjectiveOn q.stored → q.Substitutes r₁ r₂) ∧
    ∀ l : Lineage, r₁.InjectiveOn l.stored → (r₁.andThen r₂).InjectiveOn l.stored →
      l.Renamed r₁ (l.relocate r₁) ∧
      (l.relocate r₁).relocate r₂ = l.relocate (r₁.andThen r₂) :=
  ⟨apply_andThen r₁ r₂, fun _ hnodup => apply_ofMoves hnodup,
    fun frame hr₁ => ⟨frame.relocate_renamed hr₁, frame.relocate_relocate r₁ r₂⟩,
    fun _ hq hr₁ hr => hq.valid.relocate_relocate hr₁ hr,
    fun _ hr₁ hr => ⟨Lineage.relocate_renamed hr₁, Lineage.relocate_relocate hr₁ hr⟩⟩

/-- An exchange, a chain of two moves and a formula that is collected. -/
def exchange : Relocation :=
  (ofMoves [(⟨1⟩, ⟨2⟩), (⟨2⟩, ⟨1⟩), (⟨3⟩, ⟨4⟩), (⟨4⟩, ⟨5⟩)]).collect ⟨6⟩

/-- Another exchange of the same two, and the end of the chain is collected. -/
def retreat : Relocation := (ofMoves [(⟨1⟩, ⟨2⟩), (⟨2⟩, ⟨1⟩)]).collect ⟨5⟩

def crowded : Frame :=
  { members := .ofList [⟨1⟩, ⟨2⟩, ⟨3⟩, ⟨6⟩], intermediate := .ofList [⟨1⟩, ⟨4⟩] }

def arrivals : List Agenda.Operation :=
  [.push ⟨⟨1⟩, ⟨2⟩, 1, .one⟩, .push ⟨⟨2⟩, ⟨1⟩, 0, .zero⟩, .push ⟨⟨3⟩, ⟨4⟩, 2, .zero⟩,
    .push ⟨⟨1⟩, ⟨6⟩, 0, .one⟩]

def descent : Lineage where
  origins := .ofList [(⟨1⟩, ⟨⟨2⟩, ⟨3⟩, 1⟩), (⟨2⟩, ⟨⟨3⟩, ⟨4⟩, 2⟩), (⟨3⟩, ⟨⟨6⟩, ⟨1⟩, 1⟩)]
  invalid := .ofList [(⟨2⟩, 3), (⟨6⟩, 0)]
  properties := .ofList [⟨3⟩, ⟨4⟩]

theorem exchange_substitutes :
    (ofMoves [(⟨1⟩, ⟨2⟩), (⟨2⟩, ⟨1⟩)]).apply ⟨1⟩ = some ⟨2⟩ ∧
    (crowded.Renamed exchange (crowded.relocate exchange) ∧
      (crowded.relocate exchange).relocate retreat =
        crowded.relocate (exchange.andThen retreat)) ∧
    (∃ answers q, Agenda.play arrivals .empty = .ok (answers, q) ∧ q.size = 4 ∧
      q.Substitutes exchange retreat) ∧
    descent.Renamed exchange (descent.relocate exchange) ∧
    (descent.relocate exchange).relocate retreat =
      descent.relocate (exchange.andThen retreat) := by
  obtain ⟨-, hmoves, hframe, hagenda, hlineage⟩ := substitutes exchange retreat
  refine ⟨(hmoves _ (by decide) ⟨1⟩).trans (by decide), hframe crowded (by decide +kernel), ?_,
    hlineage descent (by decide +kernel) (by decide +kernel)⟩
  have hplay : ∃ answers q, Agenda.play arrivals .empty = .ok (answers, q) ∧ q.size = 4 ∧
      exchange.InjectiveOn q.stored ∧ (exchange.andThen retreat).InjectiveOn q.stored :=
    ⟨_, _, rfl, by decide +kernel, by decide +kernel, by decide +kernel⟩
  obtain ⟨answers, q, hplay, hsize, hr₁, hr⟩ := hplay
  exact ⟨answers, q, hplay, hsize, hagenda q ⟨_, _, hplay⟩ hr₁ hr⟩

end Relocation

end Invariance
