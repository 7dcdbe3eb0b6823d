import Invariance.Proofs.FiniteState.Opening

/-!
Registering a property. Every conjunct that is not a conjunction itself becomes a member of the
frame and gets an obligation of its own, unless it fails initially; then the failing state is
recorded and nothing more is registered.
-/

namespace Invariance.FiniteState

open Universe Session TransitionSystem

variable {M : Machine} {sys : TransitionSystem} {w₀ : Session} {P : Formula → Prop}
  {s : Search} {w : Session} {E : Fault → Prop}

/-- What holds while literals are registered: the frame has exactly the formulas that `P` says, and
each of them is the candidate of an obligation that it refutes. -/
structure Registering (sys : TransitionSystem) (w₀ : Session) (P : Formula → Prop) (s : Search)
    (w : Session) : Prop where
  sound : Sound sys w
  base : Extends w₀.terms w.terms
  mode : w.forward = w₀.forward
  layers : w.reach.layers = #[sys.init]
  asserted : w.paths.asserted = []
  deep : w.induction.depth = 1
  first : ∀ f, f ∈ w.induction.first ↔ P f
  between : ∀ f ∈ w.induction.intermediate, P f
  index : s.index = 0
  depth : s.depth = 1
  members : ∀ f, s.frame.contains f = true ↔ P f
  noted : ∀ f, s.frame.intermediate.contains f = true → P f
  agenda : s.agenda.Valid
  duty : ∀ ob ∈ s.agenda.waiting, ob.depth = 0 ∧ P ob.forward ∧ Refutes w.terms ob.forward ob ∧
    ∃ r, w.terms.Names ob.counter r ∧ ∀ x, sys.Initial x → r.contains x = false
  queued : ∀ f, P f → ∃ ob ∈ s.agenda.waiting, ob.forward = f
  unstaged : s.staged = []
  unlearnt : s.lineage.origins = .empty
  unmarked : s.lineage.invalid = .empty
  undecided : s.lineage.propertyInvalid = false
  properties : ∀ p, s.lineage.isProperty p = true ↔ P p

structure Falsified (sys : TransitionSystem) (w₀ : Session) (p : Formula) (w : Session) : Prop where
  sound : Sound sys w
  base : Extends w₀.terms w.terms
  fails : ∃ q r x, w₀.terms.Leaf p q ∧ w₀.terms.Names q r ∧ sys.Initial x ∧
    r.contains x = false ∧ w.trace = [x]

theorem isProperty_addProperty (l : Lineage) (p q : Formula) :
    (l.addProperty p).isProperty q = (decide (q = p) || l.isProperty q) :=
  FormulaSet.contains_insert l.properties p q

namespace Registering

theorem grow {w' : Session} (h : Registering sys w₀ P s w) (hgrow : Grows w w') :
    Registering sys w₀ P s w' where
  sound := hgrow.sound h.sound
  base := h.base.trans hgrow.terms
  mode := hgrow.forward.trans h.mode
  layers := hgrow.reach ▸ h.layers
  asserted := hgrow.paths ▸ h.asserted
  deep := hgrow.induction ▸ h.deep
  first := hgrow.induction ▸ h.first
  between := hgrow.induction ▸ h.between
  index := h.index
  depth := h.depth
  members := h.members
  noted := h.noted
  agenda := h.agenda
  duty ob hob := by
    obtain ⟨hdepth, hP, hr, r, hc, hinit⟩ := h.duty ob hob
    exact ⟨hdepth, hP, hr.extend hgrow.terms, r, hgrow.terms.names hc, hinit⟩
  queued := h.queued
  unstaged := h.unstaged
  unlearnt := h.unlearnt
  unmarked := h.unmarked
  undecided := h.undecided
  properties := h.properties

theorem again {p : Formula} {agenda : Agenda} (h : Registering sys w₀ P s w) (hp : P p)
    (hagenda : agenda.Valid) (hperm : agenda.waiting.Perm s.agenda.waiting) :
    Registering sys w₀ P { s with agenda, lineage := s.lineage.addProperty p } w := by
  have hproperties : ∀ q, (s.lineage.addProperty p).isProperty q = true ↔ P q := fun q => by
    rw [isProperty_addProperty, Bool.or_eq_true, decide_eq_true_eq, h.properties]
    exact or_iff_right_of_imp fun heq => heq ▸ hp
  exact { h with
    agenda := hagenda
    duty := fun ob hob => h.duty ob (hperm.mem_iff.mp hob)
    queued := fun f hf => by
      obtain ⟨ob, hob, heq⟩ := h.queued f hf
      exact ⟨ob, hperm.mem_iff.mpr hob, heq⟩
    properties := hproperties }

theorem enter {p g : Formula} {r : StateSet} {agenda : Agenda} (stats : Statistics)
    (h : Registering sys w₀ P s w) (hp : w.terms.Names p r) (hg : w.terms.Names g r.complement)
    (hinit : ∀ x, sys.Initial x → r.contains x = true)
    (hagenda : agenda.Valid)
    (hperm : agenda.waiting.Perm (⟨p, g, 0, .zero⟩ :: s.agenda.waiting)) :
    Registering sys w₀ (fun q => P q ∨ q = p)
      { s with
        frame.members := s.frame.members.insert p
        frame.intermediate := s.frame.intermediate.insert p
        agenda, lineage := s.lineage.addProperty p, stats }
      { w with induction := (w.induction.enter p .first).enter p .intermediate } where
  sound := h.sound.congr rfl rfl
  base := h.base
  mode := h.mode
  layers := h.layers
  asserted := h.asserted
  deep := h.deep
  first f := by
    change f ∈ w.induction.first ++ [p] ↔ _
    rw [List.mem_append, List.mem_singleton, h.first]
  between f hf := (List.mem_append.mp hf).imp (h.between f) List.mem_singleton.mp
  index := h.index
  depth := h.depth
  members f := by
    change (s.frame.members.insert p).contains f = true ↔ _
    rw [FormulaSet.contains_insert, Bool.or_eq_true, decide_eq_true_eq, or_comm]
    exact or_congr_left (h.members f)
  noted f hf := by
    change (s.frame.intermediate.insert p).contains f = true at hf
    rw [FormulaSet.contains_insert, Bool.or_eq_true, decide_eq_true_eq] at hf
    exact hf.symm.imp_left (h.noted f)
  agenda := hagenda
  duty ob hob := by
    rcases List.mem_cons.mp (hperm.mem_iff.mp hob) with rfl | hob
    · refine ⟨rfl, Or.inr rfl, ⟨r.complement, hg, ?_⟩, r.complement, hg, fun x hx => ?_⟩
      · rw [r.complement_complement]
        exact hp
      · refine Bool.eq_false_iff.mpr fun hin => ?_
        have hout := (StateSet.contains_complement_iff.mp hin).2
        rw [hinit x hx] at hout
        cases hout
    · obtain ⟨hdepth, hP, hrest⟩ := h.duty ob hob
      exact ⟨hdepth, Or.inl hP, hrest⟩
  queued f hf := by
    rcases hf with hf | rfl
    · obtain ⟨ob, hob, heq⟩ := h.queued f hf
      exact ⟨ob, hperm.mem_iff.mpr (List.mem_cons_of_mem _ hob), heq⟩
    · exact ⟨_, hperm.mem_iff.mpr List.mem_cons_self, rfl⟩
  unstaged := h.unstaged
  unlearnt := h.unlearnt
  unmarked := h.unmarked
  undecided := h.undecided
  properties q := by
    change (s.lineage.addProperty p).isProperty q = true ↔ _
    rw [isProperty_addProperty, Bool.or_eq_true, decide_eq_true_eq, h.properties, or_comm]

theorem congr {P' : Formula → Prop} (h : Registering sys w₀ P s w) (hP : ∀ q, P q ↔ P' q) :
    Registering sys w₀ P' s w := by
  obtain rfl : P = P' := funext fun q => propext (hP q)
  exact h

theorem counter_ne {p g : Formula} {r : StateSet} (h : Registering sys w₀ P s w) (hnew : ¬ P p)
    (hp : w.terms.Names p r) (hg : w.terms.Names g r.complement) :
    ∀ o ∈ s.agenda.waiting, o.counter ≠ g := fun o ho heq => by
  obtain ⟨_, hP, ⟨c, hc, hf⟩, _⟩ := h.duty o ho
  obtain rfl := (heq ▸ hc).eq hg
  rw [r.complement_complement] at hf
  exact hnew (h.sound.canonical.name_eq hf hp ▸ hP)

theorem waiting_le (h : Registering sys w₀ P s w) (hlive : ∀ p, P p → w₀.terms.Live p) :
    s.agenda.waiting.length ≤ w₀.terms.length := by
  have hnodup : (s.agenda.waiting.map (·.forward)).Nodup := by
    refine List.Nodup.map_on (fun ob hob ob' hob' heq => ?_)
      (nodup_of_counters h.agenda.nodup_waiting)
    obtain ⟨_, _, hr, _⟩ := h.duty ob hob
    obtain ⟨_, _, hr', _⟩ := h.duty ob' hob'
    exact List.inj_on_of_nodup_map h.agenda.nodup_waiting hob hob'
      (hr.counter_eq h.sound.canonical (heq ▸ hr'))
  have hsub : (s.agenda.waiting.map (·.forward)).Subperm
      ((List.range w₀.terms.length).map Formula.mk) := by
    refine hnodup.subperm fun f hf => ?_
    obtain ⟨ob, hob, rfl⟩ := List.mem_map.mp hf
    exact List.mem_map.mpr ⟨ob.forward.id, List.mem_range.mpr (hlive _ (h.duty ob hob).2.1), rfl⟩
  simpa using hsub.length_le

theorem duties (h : Registering sys w₀ P s w) :
    Duties sys w.forward w.terms s.agenda.waiting where
  distinct := h.agenda.nodup_waiting
  named ob hob := by
    obtain ⟨_, _, _, hnamed⟩ := h.duty ob hob
    exact hnamed
  forward ob hob := by
    obtain ⟨_, _, hr, _⟩ := h.duty ob hob
    exact Or.inl hr
  single ob hob hpos := by
    rw [(h.duty ob hob).1] at hpos
    exact absurd hpos (Nat.lt_irrefl 0)

theorem covers (h : Registering sys w₀ P s w) :
    Covers sys w.terms s.agenda.waiting s.frame where
  refuted ob hob := by
    obtain ⟨_, hP, hr, _⟩ := h.duty ob hob
    exact ⟨ob.forward, hr, (h.members _).mpr hP⟩
  kept ob hob := Or.inl ((h.members _).mpr (h.duty ob hob).2.1)
  members f hf := by
    obtain ⟨ob, hob, heq⟩ := h.queued f ((h.members f).mp hf)
    exact ⟨ob, hob, Or.inr heq⟩

theorem assumes (h : Registering sys w₀ P s w) :
    Assumes sys w.terms s.agenda.waiting [] w.induction.first where
  refuted ob hob := by
    obtain ⟨_, hP, hr, _⟩ := h.duty ob hob
    exact ⟨ob.forward, hr, (h.first _).mpr hP⟩
  staged_mem := by simp
  settled := by simp
  members f hf := by
    obtain ⟨ob, hob, rfl⟩ := h.queued f ((h.first f).mp hf)
    exact Or.inl ⟨ob, hob, (h.duty ob hob).2.2.1⟩

theorem origin?_eq (h : Registering sys w₀ P s w) (f : Formula) : s.lineage.origin? f = none := by
  rw [Lineage.origin?, h.unlearnt]
  rfl

theorem descends (h : Registering sys w₀ P s w) :
    Descends sys w.terms s.agenda.waiting s.lineage where
  traced f o ho := by
    rw [h.origin?_eq] at ho
    cases ho
  learnt f o ho := by
    rw [h.origin?_eq] at ho
    cases ho
  literal p hp := by
    obtain ⟨ob, hob, rfl⟩ := h.queued p ((h.properties p).mp hp)
    exact ⟨ob, hob, (h.duty ob hob).2.2.1⟩
  rooted ob hob f hf := by
    obtain ⟨hdepth, hP, hr, _⟩ := h.duty ob hob
    rw [hdepth]
    exact .property (h.origin?_eq f) ((h.properties f).mpr (hf.eq h.sound.canonical hr ▸ hP))
  depth_le ob hob := by
    rw [(h.duty ob hob).1]
    exact Nat.zero_le _

theorem ample (h : Registering sys w₀ P s w) {f : Formula} (hf : P f) : w.terms.Ample sys f := by
  obtain ⟨ob, hob, rfl⟩ := h.queued f hf
  exact h.duties.forward_ample h.sound.canonical h.sound.size hob

theorem opening (h : Registering sys w₀ P s w) (hlive : ∀ p, P p → w₀.terms.Live p) :
    Opening sys w₀ P [] sys.size s w := by
  have howed : owed [] s = s.agenda.waiting := by rw [owed, h.unstaged]; simp
  exact
    { sound := h.sound, base := h.base, mode := h.mode, layers := h.layers, asserted := h.asserted
      deep := h.deep, between := fun f hf => (h.ample (h.between f hf)).named
      index := h.index, depth := h.depth
      agenda := h.agenda, duties := howed ▸ h.duties, covers := howed ▸ h.covers
      assumes := by
        rw [howed, h.unstaged]
        exact h.assumes
      descends := howed ▸ h.descends
      room := Room.all sys _ _
      bounded := by
        rw [Lineage.size, h.unlearnt]
        exact Nat.le_of_eq (Nat.zero_add _)
      counted := by
        rw [howed]
        exact Nat.add_le_add_right (h.waiting_le hlive) _
      unmarked := h.unmarked, undecided := h.undecided, properties := h.properties }

end Registering

theorem ends_addLiteral {p : Formula} {r : StateSet} {fuel : Nat} (h : Registering sys w₀ P s w)
    (hp : w₀.terms.Names p r) {Q : Bool → Search × Session → Prop}
    (htrue : ∀ s' w', Registering sys w₀ (fun q => P q ∨ w₀.terms.Leaf p q) s' w' →
      s'.stats.rounds = s.stats.rounds → Q true (s', w'))
    (hfalse : ∀ s' w', Falsified sys w₀ p w' → s'.stats.rounds = s.stats.rounds →
      Q false (s', w')) :
    Action.Ends (Search.addProperty (backend M) (fuel + 1) p) (s, w) E Q := by
  have hleaf : ∀ q, w₀.terms.Leaf p q ↔ q = p := fun q => leaf_of_names hp
  have hconjuncts : (backend M).terms.conjuncts w p = none := conjuncts_of_names (h.base.names hp)
  simp only [Search.addProperty, Action.ends_bind, Search.ends_ask, hconjuncts]
  refine ends_negate h.sound (h.base.names hp) fun g w₁ hgrow₁ hg => ?_
  have h₁ := h.grow hgrow₁
  have hp₁ := h₁.base.names hp
  refine ends_queryInit h₁.sound hg (fun hunsat => ?_) fun x hx hin => ?_
  · have hinit : ∀ x, sys.Initial x → r.contains x = true := fun x hx => by
      refine Bool.not_eq_false _ ▸ fun hout => ?_
      have hlt : x < r.size := by
        rw [h₁.sound.sized hp₁]
        exact hx.lt
      have hin := hunsat x hx
      rw [StateSet.contains_complement_iff.mpr ⟨hlt, hout⟩] at hin
      cases hin
    simp only [Action.ends_bind, Search.ends_state]
    cases hin : s.frame.contains p with
    | true =>
        rw [if_pos rfl, Action.ends_bind]
        refine ends_bump h₁.agenda fun agenda hagenda hperm => ?_
        rw [Action.ends_bind, Search.ends_change, Action.ends_pure]
        have hP := (h₁.members p).mp hin
        refine htrue _ w₁ ((h₁.again hP hagenda hperm).congr fun q => ?_) rfl
        rw [hleaf]
        exact (or_iff_left_of_imp fun heq => heq ▸ hP).symm
    | false =>
        have hnew : ¬ P p := fun hP => by
          rw [(h₁.members p).mpr hP] at hin
          cases hin
        have hunnoted : s.frame.intermediate.contains p = false :=
          Bool.eq_false_iff.mpr fun hnoted => hnew (h₁.noted p hnoted)
        have hrefutes : Refutes w₁.terms p ⟨p, g, 0, .zero⟩ :=
          ⟨r.complement, hg, by rw [r.complement_complement]; exact hp₁⟩
        rw [if_neg Bool.false_ne_true]
        simp only [Action.ends_bind]
        refine ends_admit h₁.sound h₁.agenda hrefutes hin hunnoted (h₁.counter_ne hnew hp₁ hg)
          fun agenda stats w₂ hgrow₂ hagenda hperm hrounds => ?_
        refine ends_bump (by exact hagenda) fun agenda' hagenda' hperm' => ?_
        rw [Search.ends_change, Action.ends_pure]
        have hP : ∀ q, P q ∨ q = p ↔ P q ∨ w₀.terms.Leaf p q := fun q => by rw [hleaf]
        have hentered := h₁.enter stats hp₁ hg hinit hagenda' (hperm'.trans hperm)
        exact htrue _ w₂ ((hentered.grow hgrow₂).congr hP) hrounds
  · obtain ⟨_, hout⟩ := StateSet.contains_complement_iff.mp hin
    rw [Action.ends_bind]
    refine ends_report h₁.sound fun w₂ hgrow₂ => ?_
    rw [Action.ends_bind, Search.ends_update, Action.ends_bind, Search.ends_change,
      Action.ends_pure]
    have hw₂ := hgrow₂.sound h₁.sound
    exact hfalse _ _ ⟨hw₂.congr rfl rfl, h₁.base.trans hgrow₂.terms, p, r, x,
      (hleaf p).mpr rfl, hp, hx, hout, rfl⟩ rfl

theorem ends_addProperty {b : Nat} {p : Formula} (hp : w₀.terms.Proper b p) :
    ∀ {fuel : Nat} {P : Formula → Prop} {s : Search} {w : Session},
    (fuel < b → E .outOfFuel) → Registering sys w₀ P s w → {Q : Bool → Search × Session → Prop} →
    (∀ s' w', Registering sys w₀ (fun q => P q ∨ w₀.terms.Leaf p q) s' w' →
      s'.stats.rounds = s.stats.rounds → Q true (s', w')) →
    (∀ s' w', Falsified sys w₀ p w' → s'.stats.rounds = s.stats.rounds → Q false (s', w')) →
    Action.Ends (Search.addProperty (backend M) fuel p) (s, w) E Q := by
  induction hp with
  | @states n p r hp =>
      intro fuel P s w hfuel h Q htrue hfalse
      cases fuel with
      | zero => exact hfuel (Nat.succ_pos n)
      | succ fuel => exact ends_addLiteral h hp htrue hfalse
  | @conj n p fs hp _ ih =>
      intro fuel P s w hfuel h Q htrue hfalse
      cases fuel with
      | zero => exact hfuel (Nat.succ_pos n)
      | succ fuel =>
          have hconjuncts : (backend M).terms.conjuncts w p = some fs :=
            conjuncts_of_conj (h.base.kept hp)
          simp only [Search.addProperty, Action.ends_bind, Search.ends_ask, hconjuncts]
          -- the conjuncts still to come, with those before them registered
          have hrest : ∀ (gs : List Formula), (∀ f ∈ gs, f ∈ fs) →
              ∀ {P : Formula → Prop} {s' : Search} {w : Session}, Registering sys w₀ P s' w →
              s'.stats.rounds = s.stats.rounds →
              (∀ t v, Registering sys w₀ (fun q => P q ∨ ∃ f ∈ gs, w₀.terms.Leaf f q) t v →
                t.stats.rounds = s.stats.rounds → Q true (t, v)) →
              Action.Ends (gs.allM (Search.addProperty (backend M) fuel)) (s', w) E Q := by
            intro gs
            induction gs with
            | nil =>
                intro _ P s' w h hrounds hdone
                exact hdone s' w (h.congr fun q => by simp) hrounds
            | cons f gs ihgs =>
                intro hsub P s' w h hrounds hdone
                have hf := hsub f List.mem_cons_self
                rw [List.allM, Action.ends_bind]
                refine ih f hf (fun hlt => hfuel (Nat.succ_lt_succ hlt)) h (fun t v h' hr => ?_)
                  fun t v h' hr => ?_
                · refine ihgs (fun g hg => hsub g (List.mem_cons_of_mem _ hg)) h' (hr.trans hrounds)
                    fun t' v' h'' hr' => hdone t' v' (h''.congr fun q => ?_) hr'
                  simp [or_assoc]
                · obtain ⟨q, r, x, hq, hfails⟩ := h'.fails
                  have hleaf := (leaf_of_conj hp).mpr ⟨f, hf, hq⟩
                  exact hfalse t v ⟨h'.sound, h'.base, q, r, x, hleaf, hfails⟩ (hr.trans hrounds)
          exact hrest fs (fun f hf => hf) h rfl fun t v h' hr =>
            htrue t v (h'.congr fun q => by rw [leaf_of_conj hp]) hr

end Invariance.FiniteState
