import Invariance.Proofs.FiniteState.Repeating

/-!
From one round to the next: the frame is emptied and built anew from the staged obligations. Their
refutations are different formulas, so none is registered twice; the candidates come last.
-/

namespace Invariance.FiniteState

open Universe Session TransitionSystem

variable {M : Machine} {sys : TransitionSystem} {obs : List Obligation} {N : Nat} {s : Search}
  {w : Session} {E : Fault → Prop}

theorem ends_add (hE : Excuses M E) {a b : Nat} {Q : Nat → Search × Session → Prop}
    (hQ : Q (a + b) (s, w)) : Action.Ends (Search.checkedAdd (backend M) a b) (s, w) E Q := by
  change Action.Ends (Action.ofExcept (M.add a b)) (s, w) E Q
  rw [Machine.add]
  cases hcount : M.counts (a + b) with
  | true => exact hQ
  | false => exact hE.overflow _ hcount

theorem ends_deepen (hE : Excuses M E) (hw : Sound sys w) {Q : Unit → Search × Session → Prop}
    (hQ : ∀ stats w', stats.rounds = s.stats.rounds →
      Grows { w with induction := { depth := s.index + 1 } } w' →
      Q () ({ s with agenda := .empty, frame := {}, depth := s.index + 1, stats }, w')) :
    Action.Ends (Search.deepen (backend M)) (s, w) E Q := by
  rw [Search.deepen, Action.ends_bind, Search.ends_change, Action.ends_bind, Search.ends_state,
    Action.ends_bind, Search.ends_state, Action.ends_bind]
  refine ends_add hE ?_
  rw [Action.ends_bind, Search.ends_change, Action.ends_bind]
  refine ends_clearFrame (Nat.succ_pos _) ?_
  rw [Action.ends_bind, Search.ends_change]
  have hw' : Sound sys { w with induction := { depth := s.index + 1 } } := hw.congr rfl rfl
  exact ends_report hw' fun w' hgrow => hQ _ w' rfl hgrow

structure Restoring (sys : TransitionSystem) (done : List Obligation) (s : Search) (w : Session) :
    Prop where
  sound : Sound sys w
  deep : 0 < w.induction.depth
  first : w.terms.Named w.induction.first
  between : w.terms.Named w.induction.intermediate
  refuted : ∀ ob ∈ done, ∃ f, Refutes w.terms f ob ∧ f ∈ w.induction.first ∧
    s.frame.contains f = true
  members : ∀ f, s.frame.contains f = true ∨ s.frame.intermediate.contains f = true →
    ∃ ob ∈ done, Refutes w.terms f ob
  agenda : s.agenda.Valid
  queued : s.agenda.waiting.Perm (done.map Obligation.bare)
  unstaged : s.staged = []
  undecided : s.lineage.propertyInvalid = false

namespace Restoring

variable {done : List Obligation}

theorem grow {w' : Session} (h : Restoring sys done s w) (hgrow : Grows w w') :
    Restoring sys done s w' where
  sound := hgrow.sound h.sound
  deep := hgrow.induction ▸ h.deep
  first := hgrow.induction ▸ h.first.extend hgrow.terms
  between := hgrow.induction ▸ h.between.extend hgrow.terms
  refuted ob hob := by
    obtain ⟨f, hf, hin⟩ := h.refuted ob hob
    exact ⟨f, hf.extend hgrow.terms, hgrow.induction ▸ hin⟩
  members f hf := by
    obtain ⟨ob, hob, hr⟩ := h.members f hf
    exact ⟨ob, hob, hr.extend hgrow.terms⟩
  agenda := h.agenda
  queued := h.queued
  unstaged := h.unstaged
  undecided := h.undecided

theorem not_mem {ob : Obligation} {f : Formula} (h : Restoring sys done s w)
    (hnew : ∀ o ∈ done, o.counter ≠ ob.counter) (hf : Refutes w.terms f ob) :
    s.frame.contains f = false ∧ s.frame.intermediate.contains f = false := by
  have hnot : ¬ (s.frame.contains f = true ∨ s.frame.intermediate.contains f = true) := by
    intro hin
    obtain ⟨o, ho, hr⟩ := h.members f hin
    exact hnew o ho (hr.counter_eq h.sound.canonical hf)
  exact ⟨Bool.eq_false_iff.mpr fun hin => hnot (Or.inl hin),
    Bool.eq_false_iff.mpr fun hin => hnot (Or.inr hin)⟩

theorem enter {ob : Obligation} {f : Formula} {agenda : Agenda} (stats : Statistics)
    (h : Restoring sys done s w) (hf : Refutes w.terms f ob) (hagenda : agenda.Valid)
    (hperm : agenda.waiting.Perm (ob.bare :: s.agenda.waiting)) :
    Restoring sys (ob :: done)
      { s with
        frame.members := s.frame.members.insert f
        frame.intermediate := s.frame.intermediate.insert f, agenda, stats }
      { w with induction := (w.induction.enter f .first).enter f .intermediate } where
  sound := h.sound.congr rfl rfl
  deep := h.deep
  first := by
    obtain ⟨c, _, hfc⟩ := hf
    exact List.forall_mem_append.mpr ⟨h.first, by simpa using ⟨_, hfc⟩⟩
  between := by
    obtain ⟨c, _, hfc⟩ := hf
    exact List.forall_mem_append.mpr ⟨h.between, by simpa using ⟨_, hfc⟩⟩
  refuted := by
    have hcontains : ∀ g, (s.frame.members.insert f).contains g =
        (decide (g = f) || s.frame.contains g) := FormulaSet.contains_insert _ f
    refine List.forall_mem_cons.mpr ⟨⟨f, hf, by simp [InductionSolver.enter], ?_⟩, fun o ho => ?_⟩
    · exact (hcontains f).trans (by simp)
    · obtain ⟨g, hg, hin, hframe⟩ := h.refuted o ho
      refine ⟨g, hg, List.mem_append_left _ hin, (hcontains g).trans ?_⟩
      rw [hframe, Bool.or_true]
  members g hg := by
    change (s.frame.members.insert f).contains g = true ∨
      (s.frame.intermediate.insert f).contains g = true at hg
    rw [FormulaSet.contains_insert, FormulaSet.contains_insert] at hg
    simp only [Bool.or_eq_true, decide_eq_true_eq] at hg
    by_cases heq : g = f
    · exact ⟨ob, List.mem_cons_self, heq ▸ hf⟩
    · obtain ⟨o, ho, hr⟩ := h.members g (hg.imp (·.resolve_left heq) (·.resolve_left heq))
      exact ⟨o, List.mem_cons_of_mem _ ho, hr⟩
  agenda := hagenda
  queued := hperm.trans (h.queued.cons ob.bare)
  unstaged := h.unstaged
  undecided := h.undecided

end Restoring

theorem ends_restore {done : List Obligation} {ob : Obligation} {c : StateSet}
    (h : Restoring sys done s w) (hc : w.terms.Names ob.counter c)
    (hnew : ∀ o ∈ done, o.counter ≠ ob.counter) {Q : Unit → Search × Session → Prop}
    (hQ : ∀ s' w', Restoring sys (ob :: done) s' w' → Extends w.terms w'.terms →
      s'.stats.rounds = s.stats.rounds → Q () (s', w')) :
    Action.Ends (Search.restore (backend M) ob) (s, w) E Q := by
  simp only [Search.restore, Action.ends_bind]
  refine ends_negate h.sound hc fun f w₁ hgrow₁ hfc => ?_
  have h₁ := h.grow hgrow₁
  have hf : Refutes w₁.terms f ob := ⟨c, hgrow₁.terms.names hc, hfc⟩
  obtain ⟨hout, hunnoted⟩ := h₁.not_mem hnew hf
  have hfresh : ∀ o ∈ s.agenda.waiting, o.counter ≠ ob.counter := fun o ho => by
    obtain ⟨o', ho', rfl⟩ := List.mem_map.mp (h₁.queued.mem_iff.mp ho)
    exact hnew o' ho'
  refine ends_admit h₁.sound h₁.agenda hf hout hunnoted hfresh
    fun agenda stats w₂ hgrow₂ hagenda hperm hrounds => ?_
  refine hQ _ w₂ ((h₁.enter stats hf hagenda hperm).grow hgrow₂) ?_ hrounds
  exact hgrow₁.terms.trans hgrow₂.terms

theorem ends_restoreAll : ∀ {todo done : List Obligation} {s : Search} {w : Session},
    Restoring sys done s w → (∀ ob ∈ todo, ∃ c, w.terms.Names ob.counter c) →
    ((done ++ todo).map (·.counter)).Nodup → {Q : PUnit → Search × Session → Prop} →
    (∀ s' w', Restoring sys (todo.reverse ++ done) s' w' → Extends w.terms w'.terms →
      s'.stats.rounds = s.stats.rounds → Q ⟨⟩ (s', w')) →
    Action.Ends (todo.forM (Search.restore (backend M))) (s, w) E Q
  | [], done, s, w, h, _, _, _, hQ => hQ s w h (.refl _) rfl
  | ob :: todo, done, s, w, h, hnamed, hnodup, Q, hQ => by
      obtain ⟨⟨c, hc⟩, hnamed'⟩ := List.forall_mem_cons.mp hnamed
      have hswap : (ob :: done ++ todo).Perm (done ++ ob :: todo) := List.perm_middle.symm
      have hnodup' := ((hswap.map (·.counter)).nodup_iff).mpr hnodup
      have hnew : ∀ o ∈ done, o.counter ≠ ob.counter := fun o ho heq => by
        rw [List.cons_append, List.map_cons, List.nodup_cons] at hnodup'
        exact hnodup'.1 (List.mem_map.mpr ⟨o, List.mem_append_left _ ho, heq⟩)
      change Action.Ends (do
        Search.restore (backend M) ob
        todo.forM (Search.restore (backend M))) (s, w) E Q
      rw [Action.ends_bind]
      refine ends_restore h hc hnew fun s₁ w₁ h₁ hext₁ hrounds₁ => ?_
      refine ends_restoreAll h₁ (fun o ho => ?_) hnodup' fun s' w' h' hext' hrounds' => ?_
      · obtain ⟨c', hc'⟩ := hnamed' o ho
        exact ⟨c', hext₁.names hc'⟩
      · refine hQ s' w' ?_ (hext₁.trans hext') (hrounds'.trans hrounds₁)
        simpa using h'

theorem Restoring.repeating {done : List Obligation} {frame : Frame}
    (h : Restoring sys done s w) (index : Nat) (stats : Statistics)
    (hstalled : Stalled sys w.terms done)
    (hframe : ∀ f, frame.contains f = true ↔
      (∃ ob ∈ done, ob.forward = f) ∨ s.frame.contains f = true) :
    Repeating sys done.length [] { s with frame, index, stats } w := by
  have hall : (done.map Obligation.bare).Perm (owed [] { s with frame, index, stats }) := by
    rw [owed, h.unstaged, List.nil_append, List.append_nil]
    exact h.queued.symm
  have hmem : ∀ ob ∈ owed [] { s with frame, index, stats }, ∃ o ∈ done, o.bare = ob :=
    fun ob hob => List.mem_map.mp (hall.mem_iff.mpr hob)
  refine
    { sound := h.sound, deep := h.deep, first := h.first, between := h.between
      stalled := (hstalled.rename h.sound.canonical fun ob _ => Moved.bare _ ob).perm hall
      counted := by rw [← hall.length_eq, List.length_map]
      assumed := fun ob hob => ?_, refuted := fun ob hob => ?_, forward := fun ob hob => ?_
      agenda := h.agenda, undecided := h.undecided }
  · obtain ⟨o, ho, rfl⟩ := hmem ob hob
    obtain ⟨f, hf, hin, _⟩ := h.refuted o ho
    exact ⟨f, hf, hin⟩
  · obtain ⟨o, ho, rfl⟩ := hmem ob hob
    obtain ⟨f, hf, _, hin⟩ := h.refuted o ho
    exact ⟨f, hf, (hframe f).mpr (Or.inr hin)⟩
  · obtain ⟨o, ho, rfl⟩ := hmem ob hob
    exact (hframe _).mpr (Or.inl ⟨o, ho, rfl⟩)

theorem ends_rebuild (hE : Excuses M E) (hw : Sound sys w) (hstalled : Stalled sys w.terms s.staged)
    (hframe : s.frame = {}) (hagenda : s.agenda = .empty) {d : Nat}
    (hinduction : w.induction = { depth := d + 1 }) (hundecided : s.lineage.propertyInvalid = false)
    {Q : Unit → Search × Session → Prop}
    (hQ : ∀ s' w', Repeating sys s.staged.length [] s' w' → s'.staged = [] →
      s'.stats.rounds = s.stats.rounds → Q () (s', w')) :
    Action.Ends (Search.rebuild (backend M)) (s, w) E Q := by
  have h₀ : Restoring sys [] { s with staged := [] } w := by
    refine
      { sound := hw, deep := by simp [hinduction], first := by simp [hinduction, Named]
        between := by simp [hinduction, Named], refuted := by simp, members := fun f hf => ?_
        agenda := ?_, queued := ?_, unstaged := rfl, undecided := hundecided }
    · rw [hframe] at hf
      rcases hf with hf | hf <;> cases hf
    · rw [hagenda]
      exact Agenda.empty_valid
    · rw [hagenda]
      exact .nil
  have hnamed : ∀ ob ∈ s.staged, ∃ c, w.terms.Names ob.counter c := fun ob hob => by
    obtain ⟨c, hc, _⟩ := hstalled.duties.named ob hob
    exact ⟨c, hc⟩
  rw [Search.rebuild, Action.ends_bind, Search.ends_state, Action.ends_bind, Search.ends_change,
    Action.ends_bind]
  refine ends_restoreAll h₀ hnamed hstalled.duties.distinct fun s₁ w₁ h₁ hext₁ hrounds₁ => ?_
  rw [List.append_nil] at h₁
  have hstalled₁ : Stalled sys w₁.terms s.staged.reverse :=
    (hstalled.extend hw.canonical hext₁).perm s.staged.reverse_perm.symm
  let frame : Frame := s.staged.foldl (fun frame ob => frame.insert ob.forward) s₁.frame
  have hcontains : ∀ f, frame.contains f = true ↔
      (∃ ob ∈ s.staged.reverse, ob.forward = f) ∨ s₁.frame.contains f = true := fun f => by
    simpa only [List.mem_reverse] using Frame.contains_foldl_insert
  have h₂ : ∀ index stats, Repeating sys s.staged.length [] { s₁ with frame, index, stats } w₁ :=
    fun index stats => by simpa using h₁.repeating index stats hstalled₁ hcontains
  have hrefuted : ∀ o ∈ s₁.agenda.waiting,
      ∃ f, Refutes w₁.terms f o ∧ frame.contains f = true := fun o ho =>
    (h₂ s₁.index s₁.stats).refuted o (List.mem_append_right _ (List.mem_append_left _ ho))
  rw [Action.ends_bind, Search.ends_change, Action.ends_bind, Search.countFrame,
    Search.ends_change, Action.ends_bind, Search.ends_change, Action.ends_bind]
  refine ends_checkRefutations h₁.sound (by exact h₁.agenda) (by exact hrefuted) fun w₂ hgrow₂ => ?_
  rw [Action.ends_bind, Search.ends_state, Action.ends_bind, Search.ends_state, Action.ends_bind]
  refine ends_add hE ?_
  rw [Search.ends_change]
  exact hQ _ w₂ ((h₂ _ _).grow hgrow₂) h₁.unstaged hrounds₁

end Invariance.FiniteState
