import Invariance.Proofs.FiniteState.Rebuilding

/-!
A sweep between two rounds. Every formula that matters to a search that has stalled stands for a set
of states, so it moves to a name of the same set, and nothing is dropped.
-/

namespace Invariance.FiniteState

open Universe Session TransitionSystem

variable {M : Machine} {sys : TransitionSystem} {N : Nat} {s : Search} {w : Session}
  {E : Fault → Prop} {r : Relocation}

def renamed (r : Relocation) (ob : Obligation) : Obligation := (ob.relocate r).getD ob

theorem bare_renamed (ob : Obligation) : (renamed r ob).bare = renamed r ob.bare := by
  simp only [renamed, Obligation.relocate, Obligation.bare]
  cases r.apply ob.forward <;> cases r.apply ob.counter <;> rfl

theorem sweep_renamed {u : Universe} (hu : u.Canonical) {ob : Obligation} {c f : StateSet}
    (hc : u.Names ob.counter c) (hf : u.Names ob.forward f) :
    ob.relocate u.sweep.1 = some (renamed u.sweep.1 ob) ∧
      Moved u u.sweep.2 ob (renamed u.sweep.1 ob) := by
  obtain ⟨c', hc', hcn⟩ := sweep_names hu hc
  obtain ⟨f', hf', hfn⟩ := sweep_names hu hf
  have hrelocate : ob.relocate u.sweep.1 = some { ob with forward := f', counter := c' } := by
    simp only [Obligation.relocate, hf', hc']
    rfl
  have hrenamed : renamed u.sweep.1 ob = { ob with forward := f', counter := c' } := by
    rw [renamed, hrelocate]
    rfl
  rw [hrelocate, hrenamed]
  refine ⟨rfl, fun hs => ?_, fun hs => ?_, rfl⟩
  · obtain rfl := hs.eq hc
    exact hcn
  · obtain rfl := hs.eq hf
    exact hfn

theorem sweep_named {u : Universe} (hu : u.Canonical) {fs : List Formula} (h : u.Named fs) :
    u.sweep.2.Named (fs.filterMap u.sweep.1.apply) := fun g hg => by
  obtain ⟨f, hf, hfg⟩ := List.mem_filterMap.mp hg
  obtain ⟨t, ht⟩ := h f hf
  obtain ⟨g', hg', htn⟩ := sweep_names hu ht
  obtain rfl := Option.some.inj (hg'.symm.trans hfg)
  exact ⟨t, htn⟩

theorem sweep_refutes {u : Universe} (hu : u.Canonical) {f : Formula} {ob ob' : Obligation}
    (h : Refutes u f ob) (hmoved : Moved u u.sweep.2 ob ob') :
    ∃ g, u.sweep.1.apply f = some g ∧ Refutes u.sweep.2 g ob' := by
  obtain ⟨c, hc, hf⟩ := h
  obtain ⟨g, hg, hgn⟩ := sweep_names hu hf
  exact ⟨g, hg, c, hmoved.counter hc, hgn⟩

namespace Repeating

theorem renamed_spec (h : Repeating sys N [] s w) (hstaged : s.staged = []) {ob : Obligation}
    (hob : ob.bare ∈ s.agenda.waiting) :
    ob.relocate w.terms.sweep.1 = some (renamed w.terms.sweep.1 ob) ∧
      Moved w.terms w.terms.sweep.2 ob (renamed w.terms.sweep.1 ob) := by
  have hin : ob.bare ∈ owed [] s := by
    rw [owed, hstaged]
    simpa using hob
  obtain ⟨c, hc, _⟩ := h.stalled.duties.named ob.bare hin
  obtain ⟨f, hf⟩ := h.stalled.duties.forward_named hin
  exact sweep_renamed h.sound.canonical (by exact hc) (by exact hf)

theorem owed_eq (hstaged : s.staged = []) : owed [] s = s.agenda.waiting := by
  rw [owed, hstaged, List.nil_append, List.append_nil]

theorem moved (h : Repeating sys N [] s w) (hstaged : s.staged = []) {ob : Obligation}
    (hob : ob ∈ s.agenda.waiting) :
    Moved w.terms w.terms.sweep.2 ob (renamed w.terms.sweep.1 ob) :=
  (h.renamed_spec hstaged (Agenda.bare_mem_waiting hob)).2

theorem renamed_stalled (h : Repeating sys N [] s w) (hstaged : s.staged = []) :
    Stalled sys w.terms.sweep.2 (s.agenda.waiting.map (renamed w.terms.sweep.1)) := by
  have hstalled := h.stalled
  rw [owed_eq hstaged] at hstalled
  exact hstalled.rename h.sound.canonical fun _ => h.moved hstaged

theorem refuted_renamed (h : Repeating sys N [] s w) (hstaged : s.staged = []) {ob : Obligation}
    (hob : ob ∈ s.agenda.waiting) :
    ∃ g, Refutes w.terms.sweep.2 g (renamed w.terms.sweep.1 ob) ∧
      (s.frame.relocate w.terms.sweep.1).contains g = true := by
  obtain ⟨f, hf, hin⟩ := h.refuted ob (by rwa [owed_eq hstaged])
  obtain ⟨g, hg, hr⟩ := sweep_refutes h.sound.canonical hf (h.moved hstaged hob)
  exact ⟨g, hr, FormulaSet.contains_relocate.mpr ⟨f, hin, hg⟩⟩

theorem relocate (h : Repeating sys N [] s w) (hstaged : s.staged = []) {agenda : Agenda}
    {stats : Statistics} {w' : Session} (hagenda : agenda.Valid)
    (hperm : agenda.waiting.Perm (s.agenda.waiting.map (renamed w.terms.sweep.1)))
    (hsystem : w'.system = sys) (hterms : w'.terms = w.terms.sweep.2)
    (hinduction : w'.induction = w.induction.relocate w.terms.sweep.1) :
    Repeating sys N []
      { s with
        frame := s.frame.relocate w.terms.sweep.1, agenda
        lineage := s.lineage.relocate w.terms.sweep.1, stats } w' := by
  let s' : Search :=
    { s with
      frame := s.frame.relocate w.terms.sweep.1, agenda
      lineage := s.lineage.relocate w.terms.sweep.1, stats }
  have hu := h.sound.canonical
  have howed : owed [] s' = agenda.waiting := owed_eq hstaged
  have hall : (s.agenda.waiting.map (renamed w.terms.sweep.1)).Perm (owed [] s') := by
    rw [howed]
    exact hperm.symm
  have hmem : ∀ ob ∈ owed [] s', ∃ o ∈ s.agenda.waiting, renamed w.terms.sweep.1 o = ob :=
    fun ob hob => List.mem_map.mp (hall.mem_iff.mpr hob)
  have hold : ∀ o ∈ s.agenda.waiting, o ∈ owed [] s := fun o ho => by rwa [owed_eq hstaged]
  obtain ⟨hdepth, hfirst, hbetween⟩ : w'.induction.depth = w.induction.depth ∧
      w'.induction.first = w.induction.first.filterMap w.terms.sweep.1.apply ∧
      w'.induction.intermediate = w.induction.intermediate.filterMap w.terms.sweep.1.apply := by
    rw [hinduction]
    exact ⟨rfl, rfl, rfl⟩
  refine
    { sound := h.sound.sweep (hsystem.trans h.sound.system.symm) hterms
      stalled := ?_, counted := ?_
      deep := hdepth ▸ h.deep, first := ?_, between := ?_
      assumed := fun ob hob => ?_, refuted := fun ob hob => ?_, forward := fun ob hob => ?_
      agenda := hagenda, undecided := h.undecided }
  · rw [hterms]
    exact (h.renamed_stalled hstaged).perm hall
  · have hcounted := h.counted
    rw [owed_eq hstaged] at hcounted
    rw [← hall.length_eq, List.length_map, hcounted]
  · rw [hterms, hfirst]
    exact sweep_named hu h.first
  · rw [hterms, hbetween]
    exact sweep_named hu h.between
  · obtain ⟨o, ho, rfl⟩ := hmem ob hob
    obtain ⟨f, hf, hin⟩ := h.assumed o (hold o ho)
    obtain ⟨g, hg, hr⟩ := sweep_refutes hu hf (h.moved hstaged ho)
    exact ⟨g, hterms ▸ hr, hfirst ▸ List.mem_filterMap.mpr ⟨f, hin, hg⟩⟩
  · obtain ⟨o, ho, rfl⟩ := hmem ob hob
    rw [hterms]
    exact h.refuted_renamed hstaged ho
  · obtain ⟨o, ho, rfl⟩ := hmem ob hob
    have hmove := Obligation.relocate_eq_some.mp
      (h.renamed_spec hstaged (Agenda.bare_mem_waiting ho)).1
    exact FormulaSet.contains_relocate.mpr ⟨o.forward, h.forward o (hold o ho), hmove.1⟩

end Repeating

theorem ends_keep (hw : Sound sys w) {obs : List Obligation}
    (hall : ∀ ob ∈ obs, ∃ f, Refutes w.terms f ob ∧ s.frame.contains f = true)
    {Q : List Obligation → Search × Session → Prop} (hQ : ∀ w', Grows w w' → Q obs (s, w')) :
    Action.Ends (obs.filterM fun ob => do
      return (← Search.state).frame.contains (← Search.negate (backend M) ob.counter))
      (s, w) E Q := by
  have hkeep : ∀ ob ∈ obs, ∀ t : Search × Session, t.1 = s ∧ Grows w t.2 →
      Action.Ends (do
        return (← Search.state).frame.contains (← Search.negate (backend M) ob.counter)) t E
        fun b t' => b = true ∧ t'.1 = s ∧ Grows w t'.2 := by
    rintro ob hob ⟨s', w'⟩ ⟨rfl, hgrow⟩
    obtain ⟨f, hf, hin⟩ := hall ob hob
    rw [Action.ends_bind, Search.ends_state, Action.ends_bind]
    refine ends_refutation (hgrow.sound hw) (hf.extend hgrow.terms) fun w'' hgrow' => ?_
    exact ⟨hin, rfl, hgrow.trans hgrow'⟩
  refine (Action.ends_filterM hkeep ⟨rfl, .refl hw.canonical⟩).imp fun kept t ht => ?_
  obtain ⟨s', w'⟩ := t
  obtain ⟨rfl, rfl, hgrow⟩ := ht
  exact hQ w' hgrow

/-- Frame, lineage and induction solver have the formulas that the swept universe has for
theirs. -/
structure Relocated (s : Search) (w : Session) (s' : Search) (w' : Session) : Prop where
  frame : s'.frame = s.frame.relocate w.terms.sweep.1
  lineage : s'.lineage = s.lineage.relocate w.terms.sweep.1
  index : s'.index = s.index
  induction : w'.induction = w.induction.relocate w.terms.sweep.1
  terms : Extends w.terms.sweep.2 w'.terms

theorem ends_relocate (h : Repeating sys N [] s w) (hstaged : s.staged = []) {journal : Journal}
    {Q : Unit → Search × Session → Prop}
    (hQ : ∀ s' w', Repeating sys N [] s' w' → s'.staged = [] →
      s'.stats.rounds = s.stats.rounds → Relocated s w s' w' → Q () (s', w')) :
    Action.Ends (Search.relocate (backend M) w.terms.sweep.1)
      (s, { w with terms := w.terms.sweep.2, journal }) E Q := by
  have hu := h.sound.canonical
  have hnodup : ((s.agenda.waiting.map (renamed w.terms.sweep.1)).map (·.counter)).Nodup :=
    (h.renamed_stalled hstaged).duties.distinct
  obtain ⟨lost, agenda₁, hrelocate, hagenda₁, hperm₁⟩ :=
    Agenda.relocate_waiting (fun ob hob => (h.renamed_spec hstaged hob).1) bare_renamed hnodup
  obtain ⟨agenda₂, hlist, hagenda₂, hperm₂⟩ := Agenda.ofList_waiting hagenda₁
  let w₀ : Session :=
    { w with
      terms := w.terms.sweep.2, journal
      induction := w.induction.relocate w.terms.sweep.1
      paths := w.paths.relocate w.terms.sweep.1
      reach := w.reach.relocate w.terms.sweep.1 }
  -- the agenda is rebuilt twice, so the state is described for whatever agenda comes out
  have hmoved : ∀ agenda : Agenda, agenda.Valid →
      agenda.waiting.Perm (s.agenda.waiting.map (renamed w.terms.sweep.1)) → ∀ stats,
      Repeating sys N []
        { s with
          frame := s.frame.relocate w.terms.sweep.1, agenda
          lineage := s.lineage.relocate w.terms.sweep.1, stats } w₀ :=
    fun agenda hagenda hperm stats =>
      h.relocate hstaged hagenda hperm h.sound.system rfl rfl
  have hrefuted : ∀ agenda : Agenda,
      agenda.waiting.Perm (s.agenda.waiting.map (renamed w.terms.sweep.1)) →
      ∀ o ∈ agenda.waiting, ∃ f, Refutes w.terms.sweep.2 f o ∧
        (s.frame.relocate w.terms.sweep.1).contains f = true := fun agenda hperm o ho => by
    obtain ⟨o', ho', rfl⟩ := List.mem_map.mp (hperm.mem_iff.mp ho)
    exact h.refuted_renamed hstaged ho'
  have hw₁ : Sound sys { w with terms := w.terms.sweep.2, journal } := h.sound.sweep rfl rfl
  rw [Search.relocate, Action.ends_bind, Search.ends_state]
  simp only [hstaged, List.isEmpty_nil, if_true]
  rw [Action.ends_bind, Search.ends_change, Action.ends_bind, Search.ends_state, Action.ends_bind]
  change Action.Ends (Action.ofExcept (s.agenda.relocate w.terms.sweep.1)) _ E _
  rw [hrelocate, Action.ends_ofExcept_ok, Action.ends_bind]
  refine ends_keep hw₁ (fun ob hob => ?_) fun w₂ hgrow₂ => ?_
  · exact hrefuted agenda₁ hperm₁ ob.bare (List.mem_map.mpr ⟨ob, hob, rfl⟩)
  rw [Action.ends_bind, hlist, Action.ends_ofExcept_ok, Action.ends_bind, Search.ends_change,
    Action.ends_bind]
  refine ends_checkRefutations (hgrow₂.sound hw₁) (by exact hagenda₂) (fun o ho => ?_)
    fun w₃ hgrow₃ => ?_
  · obtain ⟨f, hf, hin⟩ := hrefuted agenda₂ (hperm₂.trans hperm₁) o ho
    exact ⟨f, hf.extend hgrow₂.terms, hin⟩
  have hgrow := hgrow₂.trans hgrow₃
  rw [Action.ends_bind, Search.ends_change, Action.ends_bind, Search.ends_update, Action.ends_bind,
    Search.ends_update, Action.ends_bind, Search.countFrame, Search.ends_change, Action.ends_bind,
    Search.ends_change]
  let w₄ : Session :=
    (backend M).reachability.relocate w.terms.sweep.1
      ((backend M).oracle.relocate w.terms.sweep.1 w₃)
  have hgrow₄ : Grows w₀ w₄ := by
    refine ⟨hgrow.terms, hgrow.canonical, ?_⟩
    simp only [w₄, w₀]
    rw [hgrow.same]
    rfl
  refine ends_report (hgrow₄.sound (hmoved agenda₂ hagenda₂ (hperm₂.trans hperm₁) s.stats).sound)
    fun w₅ hgrow₅ => ?_
  have hall := hgrow₄.trans hgrow₅
  have hlast := fun stats =>
    (hmoved agenda₂ hagenda₂ (hperm₂.trans hperm₁) stats).grow hall
  exact hQ _ w₅ (hlast _) hstaged rfl ⟨rfl, rfl, rfl, hall.induction, hall.terms⟩

end Invariance.FiniteState
