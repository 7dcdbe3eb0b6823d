import Invariance.Proofs.Twins.Containers

/-!
Two searches that are alike to a third are alike to each other: what they hold in the same place has
the same partner. Agendas that are alike are popped in the same order.
-/

namespace Invariance

variable {R R' : Formula → Formula → Prop}

/-- The pairs that share a partner. -/
def Joined (R R' : Formula → Formula → Prop) (f f' : Formula) : Prop := ∃ g, R f g ∧ R' f' g

theorem forall₂_joined {α β γ : Type*} {P : α → γ → Prop} {P' : β → γ → Prop} {l : List α}
    {l' : List β} {m : List γ} (h : List.Forall₂ P l m) (h' : List.Forall₂ P' l' m) :
    List.Forall₂ (fun a b => ∃ c, P a c ∧ P' b c) l l' := by
  induction h generalizing l' with
  | nil =>
      cases h'
      exact .nil
  | cons hac _ ih =>
      cases h' with
      | cons hbc hrest => exact .cons ⟨_, hac, hbc⟩ (ih hrest)

namespace FormulaMap

variable {α β γ : Type*} {V : α → γ → Prop} {V' : β → γ → Prop} {W : α → β → Prop}
  {m : FormulaMap α} {m' : FormulaMap β} {n : FormulaMap γ}

theorem Alike.join (h : Alike R V m n) (h' : Alike R' V' m' n)
    (hW : ∀ {a b c}, V a c → V' b c → W a b) : Alike (Joined R R') W m m' :=
  (forall₂_joined h h').imp fun _ _ ⟨_, hx, hy⟩ => ⟨⟨_, hx.1, hy.1⟩, hW hx.2 hy.2⟩

end FormulaMap

theorem Obligation.Alike.join {a b c : Obligation} (h : a.Alike R c) (h' : b.Alike R' c) :
    a.Alike (Joined R R') b :=
  ⟨⟨_, h.forward, h'.forward⟩, ⟨_, h.counter, h'.counter⟩, h.depth.trans h'.depth.symm,
    h.score.trans h'.score.symm⟩

theorem Origin.Alike.join {o o' o'' : Origin} (h : o.Alike R o'') (h' : o'.Alike R' o'') :
    o.Alike (Joined R R') o' :=
  ⟨⟨_, h.parent, h'.parent⟩, ⟨_, h.refutes, h'.refutes⟩, h.depth.trans h'.depth.symm⟩

theorem FormulaSet.Alike.join {s s' t : FormulaSet} (h : s.Alike R t) (h' : s'.Alike R' t) :
    s.Alike (Joined R R') s' :=
  FormulaMap.Alike.join h h' fun _ _ => trivial

theorem Frame.Alike.join {frame frame' frame'' : Frame} (h : frame.Alike R frame'')
    (h' : frame'.Alike R' frame'') : frame.Alike (Joined R R') frame' :=
  ⟨h.members.join h'.members, h.intermediate.join h'.intermediate⟩

theorem Lineage.Alike.join {l l' l'' : Lineage} (h : l.Alike R l'') (h' : l'.Alike R' l'') :
    l.Alike (Joined R R') l' where
  origins := h.origins.join h'.origins fun ho ho' => ho.join ho'
  invalid := h.invalid.join h'.invalid fun hk hk' => hk.trans hk'.symm
  properties := h.properties.join h'.properties
  propertyInvalid := h.propertyInvalid.trans h'.propertyInvalid.symm

namespace Agenda

variable {q q' q'' : Agenda}

theorem Refines.unique {t t' : Table} (h : q.Refines t) (h' : q.Refines t') : t = t' :=
  FormulaMap.ext_get? fun c => (h.find?_eq c).symm.trans (h'.find?_eq c)

theorem Alike.join (h : q.Alike R q'') (h' : q'.Alike R' q'') : q.Alike (Joined R R') q' := by
  obtain ⟨t, t₁, hq, hq₁, ht⟩ := h
  obtain ⟨t', t₂, hq', hq₂, ht'⟩ := h'
  obtain rfl := hq₁.unique hq₂
  exact ⟨t, t', hq, hq', ht.join ht' fun hob hob' => hob.join hob'⟩

/-- Popping until nothing is left yields these obligations, in this order. -/
inductive Pops : Agenda → List Obligation → Prop
  | done {q : Agenda} : q.isEmpty = true → Pops q []
  | more {q q' : Agenda} {ob : Obligation} {obs : List Obligation} :
      q.pop = .ok (ob, q') → Pops q' obs → Pops q (ob :: obs)

theorem Alike.pops (hR : Matching R) : ∀ {n : Nat} {q q' : Agenda}, q.Alike R q' → q.size = n →
    ∃ obs obs', q.Pops obs ∧ q'.Pops obs' ∧ List.Forall₂ (Obligation.Alike R) obs obs'
  | n, q, q', h, hn => by
      cases hempty : q.isEmpty with
      | true => exact ⟨[], [], .done hempty, .done (h.isEmpty_eq ▸ hempty), .nil⟩
      | false =>
          obtain ⟨t, _, hq, _⟩ := id h
          obtain ⟨ob, q₁, hpop₀, _, hsize, _⟩ := hq.pop hempty
          obtain ⟨a, _, b, q₁', hpop, hpop', hab, h₁⟩ := h.pop hR hempty
          obtain ⟨rfl, rfl⟩ := Prod.mk.inj (Except.ok.inj (hpop₀.symm.trans hpop))
          have hlt : q₁.size < n := by omega
          obtain ⟨obs, obs', hpops, hpops', hobs⟩ := h₁.pops hR rfl
          exact ⟨ob :: obs, b :: obs', .more hpop hpops, .more hpop' hpops', .cons hab hobs⟩
termination_by n => n

end Agenda

theorem Search.Alike.join {s s' s'' : Search} (h : s.Alike R s'') (h' : s'.Alike R' s'') :
    s.Alike (Joined R R') s' where
  frame := h.frame.join h'.frame
  agenda := h.agenda.join h'.agenda
  staged := (forall₂_joined h.staged h'.staged).imp fun _ _ ⟨_, hob, hob'⟩ => hob.join hob'
  lineage := h.lineage.join h'.lineage
  index := h.index.trans h'.index.symm
  depth := h.depth.trans h'.depth.symm
  stats := h.stats.trans h'.stats.symm
  counted := by rw [h'.stats, h'.counted, h'.agenda.size_eq]
  outcome := h.outcome.trans h'.outcome.symm

end Invariance
