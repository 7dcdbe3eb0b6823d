import Invariance.Proofs.Agenda.Table
import Invariance.Proofs.Twins.Maps
import Invariance.Search

/-!
The containers of a search under a matching of formulas. Agendas, frames and lineages that hold
matched formulas answer alike, and stay alike whatever is done to both of them.
-/

namespace Invariance

variable {R R' : Formula → Formula → Prop} {f g : Formula}

/-- The relocation moves what is matched by `R` to what is matched by `R'`. -/
def Relocation.Moves (r : Relocation) (R R' : Formula → Formula → Prop) : Prop :=
  ∀ {f g}, R f g → ∃ f', r.apply f = some f' ∧ R' f' g

theorem Relocation.Moves.filterMap {r : Relocation} (hr : r.Moves R R') {l l' : List Formula}
    (hl : List.Forall₂ R l l') : List.Forall₂ R' (l.filterMap r.apply) l' := by
  induction hl with
  | nil => exact .nil
  | cons hfg _ ih =>
      obtain ⟨f', hf', halike⟩ := hr hfg
      rw [List.filterMap_cons_some hf']
      exact .cons halike ih

namespace FormulaSet

def Alike (R : Formula → Formula → Prop) (s t : FormulaSet) : Prop :=
  FormulaMap.Alike R (fun _ _ => True) s t

theorem relocate_eq (s : FormulaSet) (r : Relocation) :
    s.relocate r = s.rekey fun x => (r.apply x.1).map (·, ()) := by
  have key : ∀ (l : List (Formula × Unit)) (m : FormulaSet),
      ((l.map Prod.fst).filterMap r.apply).foldl insert m =
        (l.filterMap fun x => (r.apply x.1).map (·, ())).foldl
          (fun m x => FormulaMap.insert m x.1 x.2) m := by
    intro l
    induction l with
    | nil => exact fun _ => rfl
    | cons x l ih =>
        intro m
        rw [List.map_cons, List.filterMap_cons, List.filterMap_cons]
        cases r.apply x.1 with
        | none => exact ih m
        | some f => exact ih (insert m f)
  exact key s.entries .empty

theorem Alike.relocate {s t : FormulaSet} (h : s.Alike R t) (hR' : Matching R') {r : Relocation}
    (hr : r.Moves R R') : (s.relocate r).Alike R' t := by
  rw [relocate_eq]
  refine (FormulaMap.Alike.rekey h hR' fun {x y} hxy => ?_).2
  obtain ⟨f', hf', halike⟩ := hr hxy.1
  exact ⟨(f', ()), by rw [hf']; rfl, halike, trivial⟩

end FormulaSet

namespace Obligation

structure Alike (R : Formula → Formula → Prop) (a b : Obligation) : Prop where
  forward : R a.forward b.forward
  counter : R a.counter b.counter
  depth : a.depth = b.depth
  score : a.score = b.score

namespace Alike

variable {a b a' b' : Obligation}

theorem mono (h : a.Alike R b) (hR : ∀ {f g}, R f g → R' f g) : a.Alike R' b :=
  ⟨hR h.forward, hR h.counter, h.depth, h.score⟩

theorem leads_iff (h : a.Alike R b) (hR : Matching R) (h' : a'.Alike R b') :
    a.Leads a' ↔ b.Leads b' := by
  have hcounter : a.counter.id < a'.counter.id ↔ b.counter.id < b'.counter.id :=
    hR h.counter h'.counter
  rw [Leads, Leads, h.depth, h'.depth, h.score, h'.score, hcounter]

theorem relocate (h : a.Alike R b) {r : Relocation} (hr : r.Moves R R') :
    ∃ a', a.relocate r = some a' ∧ r.apply a.counter = some a'.counter ∧ a'.Alike R' b := by
  obtain ⟨forward, hforward, hf⟩ := hr h.forward
  obtain ⟨counter, hcounter, hc⟩ := hr h.counter
  refine ⟨{ a with forward, counter }, ?_, hcounter, hf, hc, h.depth, h.score⟩
  simp [Obligation.relocate, hforward, hcounter]

end Alike

end Obligation

namespace Agenda

def Alike (R : Formula → Formula → Prop) (q q' : Agenda) : Prop :=
  ∃ t t', q.Refines t ∧ q'.Refines t' ∧ FormulaMap.Alike R (Obligation.Alike R) t t'

namespace Alike

variable {q q' : Agenda} {a b : Obligation}

theorem empty : Alike R .empty .empty := ⟨.empty, .empty, empty_refines, empty_refines, .empty⟩

theorem mono (h : q.Alike R q') (hR : ∀ {f g}, R f g → R' f g) : q.Alike R' q' := by
  obtain ⟨t, t', hq, hq', ht⟩ := h
  exact ⟨t, t', hq, hq', ht.mono hR fun hab => hab.mono hR⟩

theorem size_eq (h : q.Alike R q') : q.size = q'.size := by
  obtain ⟨t, t', hq, hq', ht⟩ := h
  rw [hq.size_eq, hq'.size_eq, ht.size_eq]

theorem isEmpty_eq (h : q.Alike R q') : q.isEmpty = q'.isEmpty := by
  obtain ⟨t, t', hq, hq', ht⟩ := h
  rw [hq.isEmpty_eq, hq'.isEmpty_eq, ht.isEmpty_eq]

theorem valid (h : q.Alike R q') : q.Valid ∧ q'.Valid := by
  obtain ⟨t, t', hq, hq', _⟩ := h
  exact ⟨hq.valid, hq'.valid⟩

theorem exists_right (h : q.Alike R q') (ha : a ∈ q.bySlot) : ∃ b ∈ q'.bySlot, a.Alike R b := by
  obtain ⟨t, t', hq, hq', ht⟩ := h
  obtain ⟨c, b, _, hb, hab⟩ := ht.exists_right (hq.mem_bySlot.mpr ha)
  have hcounter := hq'.counter_eq hb
  exact ⟨b, hq'.mem_bySlot.mp (hcounter ▸ hb), hab⟩

theorem exists_left (h : q.Alike R q') (hb : b ∈ q'.bySlot) : ∃ a ∈ q.bySlot, a.Alike R b := by
  obtain ⟨t, t', hq, hq', ht⟩ := h
  obtain ⟨c, a, _, ha, hab⟩ := ht.exists_left (hq'.mem_bySlot.mpr hb)
  have hcounter := hq.counter_eq ha
  exact ⟨a, hq.mem_bySlot.mp (hcounter ▸ ha), hab⟩

theorem push (h : q.Alike R q') (hR : Matching R) (hob : a.Alike R b) {slot : Nat} {q₁ : Agenda}
    (hpush : q.push a = .ok (slot, q₁)) :
    ∃ slot' q₁', q'.push b = .ok (slot', q₁') ∧ q₁.Alike R q₁' := by
  obtain ⟨t, t', hq, hq', ht⟩ := h
  have hnew : q.contains a.counter = false := by
    rw [Agenda.push] at hpush
    split at hpush
    next => cases hpush
    next hnot => simpa using hnot
  have hnew' : q'.contains b.counter = false := by
    rw [hq'.contains_eq, ← ht.contains_eq hR hob.counter, ← hq.contains_eq, hnew]
  obtain ⟨slot₀, q₀, hpush₀, hq₀⟩ := hq.push hnew
  obtain ⟨rfl, rfl⟩ := Prod.mk.inj (Except.ok.inj (hpush.symm.trans hpush₀))
  obtain ⟨slot', q₁', hpush', hq₁'⟩ := hq'.push hnew'
  exact ⟨slot', q₁', hpush', _, _, hq₀, hq₁', ht.insert hR hob.counter hob⟩

theorem pop (h : q.Alike R q') (hR : Matching R) (hsome : q.isEmpty = false) :
    ∃ a q₁ b q₁', q.pop = .ok (a, q₁) ∧ q'.pop = .ok (b, q₁') ∧ a.Alike R b ∧
      q₁.Alike R q₁' := by
  have hsome' : q'.isEmpty = false := h.isEmpty_eq ▸ hsome
  obtain ⟨t, t', hq, hq', ht⟩ := h
  obtain ⟨a, q₁, hpop, hfirst, _, hq₁⟩ := hq.pop hsome
  obtain ⟨b, q₁', hpop', hfirst', _, hq₁'⟩ := hq'.pop hsome'
  -- the partner of the first one is first as well
  obtain ⟨c, b₀, hc, hb₀, hab⟩ := ht.exists_right hfirst.1
  have hfirst₀ : t'.First b₀ := by
    have hcounter := hq'.counter_eq hb₀
    refine ⟨hcounter ▸ hb₀, fun {c' other'} hother' hne => ?_⟩
    obtain ⟨f, other, hf, hother, halike⟩ := ht.exists_left hother'
    refine (hab.leads_iff hR halike).mp (hfirst.2 hother fun heq => hne ?_)
    exact (hR.eq_iff hf hab.counter).mp heq
  obtain rfl := hfirst'.unique hfirst₀
  exact ⟨a, q₁, b, q₁', hpop, hpop', hab, _, _, hq₁, hq₁', ht.erase hR hab.counter⟩

theorem bump (h : q.Alike R q') (hR : Matching R) (hf : R f g) (amount : Score) :
    ∃ found q₁ q₁', q.bump f amount = .ok (found, q₁) ∧ q'.bump g amount = .ok (found, q₁') ∧
      q₁.Alike R q₁' := by
  obtain ⟨t, t', hq, hq', ht⟩ := h
  obtain ⟨found, q₁, t₁, hbump, hturn, hq₁⟩ := hq.bump f amount
  obtain ⟨found', q₁', t₁', hbump', hturn', hq₁'⟩ := hq'.bump g amount
  have hrel := ht.get? hR hf
  cases hturn with
  | miss hno =>
      rw [FormulaMap.contains_eq_false.mp hno] at hrel
      cases hturn' with
      | miss _ => exact ⟨false, q₁, q₁', hbump, hbump', _, _, hq₁, hq₁', ht⟩
      | bump hyes =>
          rw [hyes] at hrel
          cases hrel
  | bump hyes =>
      rw [hyes] at hrel
      cases hturn' with
      | miss hno =>
          rw [FormulaMap.contains_eq_false.mp hno] at hrel
          cases hrel
      | bump hyes' =>
          rw [hyes'] at hrel
          cases hrel with
          | some hab =>
              refine ⟨true, q₁, q₁', hbump, hbump', _, _, hq₁, hq₁', ht.insert hR hf ?_⟩
              exact ⟨hab.forward, hab.counter, hab.depth, by rw [hab.score]⟩

/-- An agenda built anew from what one side holds. -/
theorem ofList (h : q.Alike R q') : ∃ q₁, Agenda.ofList q.bySlot = .ok q₁ ∧ q₁.Alike R q' := by
  obtain ⟨t, t', hq, hq', ht⟩ := h
  obtain ⟨q₁, hlist, _, hq₁⟩ :=
    Refines.ofList hq.valid.nodup_bySlot (fun hc => hq.counter_eq hc) hq.mem_bySlot
  exact ⟨q₁, hlist, t, t', hq₁, hq', ht⟩

/-- A relocation of one side alone keeps every obligation and its partner. -/
theorem relocate (h : q.Alike R q') (hR : Matching R) (hR' : Matching R') {r : Relocation}
    (hr : r.Moves R R') : ∃ lost q₁, q.relocate r = .ok (lost, q₁) ∧ q₁.Alike R' q' := by
  obtain ⟨t, t', hq, hq', ht⟩ := h
  obtain ⟨lost, q₁, t₁, hrelocate, hturn, hq₁⟩ := hq.relocate r
  refine ⟨lost, q₁, hrelocate, t₁, t', hq₁, hq', ?_⟩
  cases hturn with
  | relocate hspec _ =>
      let move : Formula × Obligation → Option (Formula × Obligation) := fun x => do
        return (← r.apply x.1, ← x.2.relocate r)
      have hmove : ∀ {x y}, EntriesAlike R (Obligation.Alike R) x y →
          ∃ x', move x = some x' ∧ EntriesAlike R' (Obligation.Alike R') x' y := fun {x y} hxy => by
        obtain ⟨c, hc, halike⟩ := hr hxy.1
        obtain ⟨a', ha', _, hab⟩ := hxy.2.relocate hr
        exact ⟨(c, a'), by simp [move, hc, ha'], halike, hab⟩
      have hcounter : ∀ {c ob ob'}, t.get? c = some ob → ob.relocate r = some ob' →
          ∃ c', R c c' ∧ r.apply c = some ob'.counter ∧ R' ob'.counter c' :=
        fun {c ob ob'} hob hmoved => by
          obtain rfl := hq.counter_eq hob
          obtain ⟨_, b, _, _, hab⟩ := ht.exists_right hob
          obtain ⟨a', ha', hc, hab'⟩ := hab.relocate hr
          obtain rfl := Option.some.inj (hmoved.symm.trans ha')
          exact ⟨b.counter, hab.counter, hc, hab'.counter⟩
      obtain ⟨hentries, halike⟩ := ht.rekey hR' hmove
      suffices heq : t₁ = t.rekey move by rwa [heq]
      refine FormulaMap.ext_get? fun c => Option.ext fun ob => ?_
      rw [← FormulaMap.mem_entries (m := t.rekey move), hentries, List.mem_filterMap]
      constructor
      · intro hob
        obtain ⟨rfl, c₀, ob₀, hob₀, hmoved⟩ := hspec.comes hob
        obtain ⟨_, _, hc, _⟩ := hcounter hob₀ hmoved
        exact ⟨(c₀, ob₀), FormulaMap.mem_entries.mpr hob₀, by simp [move, hc, hmoved]⟩
      · rintro ⟨⟨c₀, ob₀⟩, hin, hmoved⟩
        have hob₀ := FormulaMap.mem_entries.mp hin
        simp only [move, Option.bind_eq_bind, Option.bind_eq_some_iff, Option.pure_def,
          Option.some.injEq, Prod.mk.injEq] at hmoved
        obtain ⟨_, hc, _, hmoved, rfl, rfl⟩ := hmoved
        obtain ⟨g₀, hg₀, hc₀, hg₀'⟩ := hcounter hob₀ hmoved
        obtain rfl := Option.some.inj (hc.symm.trans hc₀)
        obtain ⟨ob', hob'⟩ := FormulaMap.contains_iff.mp (hspec.stays hob₀ hmoved)
        obtain ⟨heq, c₁, ob₁, hob₁, hmoved₁⟩ := hspec.comes hob'
        obtain ⟨g₁, hg₁, _, hg₁'⟩ := hcounter hob₁ hmoved₁
        rw [heq] at hg₁'
        obtain rfl : c₁ = c₀ := (hR.eq_iff hg₁ hg₀).mpr ((hR'.eq_iff hg₁' hg₀').mp rfl)
        obtain rfl := Option.some.inj (hob₁.symm.trans hob₀)
        obtain rfl := Option.some.inj (hmoved₁.symm.trans hmoved)
        exact hob'

end Alike

end Agenda

namespace Frame

structure Alike (R : Formula → Formula → Prop) (frame frame' : Frame) : Prop where
  members : frame.members.Alike R frame'.members
  intermediate : frame.intermediate.Alike R frame'.intermediate

namespace Alike

variable {frame frame' frame₁ : Frame}

theorem empty : Alike R .empty .empty := ⟨.empty, .empty⟩

theorem mono (h : frame.Alike R frame') (hR : ∀ {f g}, R f g → R' f g) : frame.Alike R' frame' :=
  ⟨h.members.mono hR id, h.intermediate.mono hR id⟩

theorem size_eq (h : frame.Alike R frame') : frame.size = frame'.size := h.members.size_eq

theorem contains_eq (h : frame.Alike R frame') (hR : Matching R) (hf : R f g) :
    frame.contains f = frame'.contains g :=
  h.members.contains_eq hR hf

theorem insert (h : frame.Alike R frame') (hR : Matching R) (hf : R f g) :
    (frame.insert f).Alike R (frame'.insert g) :=
  ⟨h.members.insert hR hf trivial, h.intermediate⟩

theorem erase (h : frame.Alike R frame') (hR : Matching R) (hf : R f g) :
    (frame.erase f).Alike R (frame'.erase g) :=
  ⟨h.members.erase hR hf, h.intermediate⟩

theorem enter (h : frame.Alike R frame') (hR : Matching R) (hf : R f g) {role : Role}
    (henter : frame.enter f role = .ok frame₁) :
    ∃ frame₁', frame'.enter g role = .ok frame₁' ∧ frame₁.Alike R frame₁' := by
  cases role with
  | first =>
      rw [Frame.enter, h.contains_eq hR hf] at henter
      rw [Frame.enter]
      split at henter
      next => cases henter
      next hnew =>
        obtain rfl := Except.ok.inj henter
        exact ⟨_, if_neg hnew, h.insert hR hf⟩
  | intermediate =>
      rw [Frame.enter, h.intermediate.contains_eq hR hf] at henter
      rw [Frame.enter]
      split at henter
      next => cases henter
      next hnew =>
        obtain rfl := Except.ok.inj henter
        exact ⟨_, if_neg hnew, h.members, h.intermediate.insert hR hf trivial⟩

theorem foldl_insert (h : frame.Alike R frame') (hR : Matching R) {obs obs' : List Obligation}
    (hobs : List.Forall₂ (Obligation.Alike R) obs obs') :
    (obs.foldl (fun frame ob => frame.insert ob.forward) frame).Alike R
      (obs'.foldl (fun frame ob => frame.insert ob.forward) frame') := by
  induction hobs generalizing frame frame' with
  | nil => exact h
  | cons hab _ ih => exact ih (h.insert hR hab.forward)

theorem relocate (h : frame.Alike R frame') (hR' : Matching R') {r : Relocation}
    (hr : r.Moves R R') : (frame.relocate r).Alike R' frame' :=
  ⟨h.members.relocate hR' hr, h.intermediate.relocate hR' hr⟩

end Alike

end Frame

structure Origin.Alike (R : Formula → Formula → Prop) (o o' : Origin) : Prop where
  parent : R o.parent o'.parent
  refutes : R o.refutes o'.refutes
  depth : o.depth = o'.depth

namespace Lineage

structure Alike (R : Formula → Formula → Prop) (l l' : Lineage) : Prop where
  origins : FormulaMap.Alike R (Origin.Alike R) l.origins l'.origins
  invalid : FormulaMap.Alike R Eq l.invalid l'.invalid
  properties : l.properties.Alike R l'.properties
  propertyInvalid : l.propertyInvalid = l'.propertyInvalid

namespace Alike

variable {l l' l₁ : Lineage} {o o' : Origin}

theorem blank : Alike R {} {} := ⟨.empty, .empty, .empty, rfl⟩

theorem mono (h : l.Alike R l') (hR : ∀ {f g}, R f g → R' f g) : l.Alike R' l' :=
  ⟨h.origins.mono hR fun ho => ⟨hR ho.parent, hR ho.refutes, ho.depth⟩, h.invalid.mono hR id,
    h.properties.mono hR id, h.propertyInvalid⟩

theorem size_eq (h : l.Alike R l') : l.size = l'.size := h.origins.size_eq

theorem isProperty_eq (h : l.Alike R l') (hR : Matching R) (hf : R f g) :
    l.isProperty f = l'.isProperty g :=
  h.properties.contains_eq hR hf

theorem isInvalid_eq (h : l.Alike R l') (hR : Matching R) (hf : R f g) :
    l.isInvalid f = l'.isInvalid g :=
  h.invalid.contains_eq hR hf

theorem addProperty (h : l.Alike R l') (hR : Matching R) (hf : R f g) :
    (l.addProperty f).Alike R (l'.addProperty g) :=
  ⟨h.origins, h.invalid, h.properties.insert hR hf trivial, h.propertyInvalid⟩

theorem addOrigin (h : l.Alike R l') (hR : Matching R) (hf : R f g) (ho : o.Alike R o') :
    (l.addOrigin f o).Alike R (l'.addOrigin g o') :=
  ⟨h.origins.insert hR hf ho, h.invalid, h.properties, h.propertyInvalid⟩

theorem markPropertyInvalid (h : l.Alike R l') :
    l.markPropertyInvalid.Alike R l'.markPropertyInvalid :=
  ⟨h.origins, h.invalid, h.properties, rfl⟩

theorem markInvalid (h : l.Alike R l') (hR : Matching R) (hf : R f g) {frame : Nat}
    (hmark : l.markInvalid f frame = .ok l₁) :
    ∃ l₁', l'.markInvalid g frame = .ok l₁' ∧ l₁.Alike R l₁' := by
  rw [Lineage.markInvalid, h.isInvalid_eq hR hf] at hmark
  rw [Lineage.markInvalid]
  split at hmark
  next => cases hmark
  next hnew =>
    obtain rfl := Except.ok.inj hmark
    refine ⟨_, if_neg hnew, h.origins, h.invalid.insert hR hf rfl, h.properties, ?_⟩
    simp only [h.propertyInvalid, h.isProperty_eq hR hf]

theorem relocate (h : l.Alike R l') (hR' : Matching R') {r : Relocation} (hr : r.Moves R R') :
    (l.relocate r).Alike R' l' := by
  refine ⟨(h.origins.rekey hR' fun {x y} hxy => ?_).2, (h.invalid.rekey hR' fun {x y} hxy => ?_).2,
    h.properties.relocate hR' hr, h.propertyInvalid⟩
  · obtain ⟨f, hf, halike⟩ := hr hxy.1
    obtain ⟨refutes, hrefutes, hR₁⟩ := hr hxy.2.refutes
    obtain ⟨parent, hparent, hR₂⟩ := hr hxy.2.parent
    exact ⟨(f, { x.2 with parent, refutes }), by simp [hf, Origin.relocate, hrefutes, hparent],
      halike, hR₂, hR₁, hxy.2.depth⟩
  · obtain ⟨f, hf, halike⟩ := hr hxy.1
    exact ⟨(f, x.2), by simp [hf], halike, hxy.2⟩

end Alike

end Lineage

structure Search.Alike (R : Formula → Formula → Prop) (s s' : Search) : Prop where
  frame : s.frame.Alike R s'.frame
  agenda : s.agenda.Alike R s'.agenda
  staged : List.Forall₂ (Obligation.Alike R) s.staged s'.staged
  lineage : s.lineage.Alike R s'.lineage
  index : s.index = s'.index
  depth : s.depth = s'.depth
  stats : s.stats = s'.stats
  counted : s'.stats.queueSize = s'.agenda.size
  outcome : s.outcome = s'.outcome

def Search.Counted (s : Search) : Prop := s.stats.frameSize = s.frame.size

namespace Search.Alike

variable {s s' : Search}

theorem blank : Alike R .blank .blank :=
  ⟨.empty, .empty, .nil, .blank, rfl, rfl, rfl, rfl, rfl⟩

theorem mono (h : s.Alike R s') (hR : ∀ {f g}, R f g → R' f g) : s.Alike R' s' :=
  { h with
    frame := h.frame.mono hR
    agenda := h.agenda.mono hR
    staged := h.staged.imp fun _ _ hob => hob.mono hR
    lineage := h.lineage.mono hR }

theorem relocate (h : s.Alike R s') (hR' : Matching R') {r : Relocation} (hr : r.Moves R R')
    (hstaged : s.staged = []) (hcounted : Counted s') {q : Agenda}
    (hq : q.Alike R' s'.agenda) :
    { s with
      frame := s.frame.relocate r, agenda := q, lineage := s.lineage.relocate r
      stats := { s.stats with
        frameSize := (s.frame.relocate r).size, queueSize := q.size } }.Alike R' s' where
  frame := h.frame.relocate hR' hr
  agenda := hq
  staged := by
    have hnil : s'.staged = [] := List.forall₂_nil_left_iff.mp (hstaged ▸ h.staged)
    simp only [hstaged, hnil]
    exact .nil
  lineage := h.lineage.relocate hR' hr
  index := h.index
  depth := h.depth
  stats := by
    rw [(h.frame.relocate hR' hr).size_eq, hq.size_eq, ← hcounted, ← h.counted, h.stats]
  counted := h.counted
  outcome := h.outcome

end Search.Alike

end Invariance
