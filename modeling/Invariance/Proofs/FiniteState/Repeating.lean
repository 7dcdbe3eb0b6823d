import Invariance.Proofs.FiniteState.Closing
import Invariance.Proofs.FiniteState.Draining

/-!
A round after the first one. All refutations are assumed from the start and nothing is learnt, so
every obligation is staged as it is, at whatever depth, unless the machine ends before.
-/

namespace Invariance.FiniteState

open Universe Session TransitionSystem

variable {M : Machine} {sys : TransitionSystem} {held : List Obligation} {N : Nat} {s : Search}
  {w : Session} {E : Fault → Prop} {config : Config}

structure Excuses (M : Machine) (E : Fault → Prop) : Prop where
  overflow : ∀ k, M.counts k = false → E (.violation .overflow)
  capacity : ∀ k, M.lists k = false → E (.violation .capacity)

structure Repeating (sys : TransitionSystem) (N : Nat) (held : List Obligation) (s : Search)
    (w : Session) : Prop where
  sound : Sound sys w
  stalled : Stalled sys w.terms (owed held s)
  counted : (owed held s).length = N
  deep : 0 < w.induction.depth
  first : w.terms.Named w.induction.first
  between : w.terms.Named w.induction.intermediate
  assumed : ∀ ob ∈ owed held s, ∃ f, Refutes w.terms f ob ∧ f ∈ w.induction.first
  refuted : ∀ ob ∈ owed held s, ∃ f, Refutes w.terms f ob ∧ s.frame.contains f = true
  forward : ∀ ob ∈ owed held s, s.frame.contains ob.forward = true
  agenda : s.agenda.Valid
  undecided : s.lineage.propertyInvalid = false

namespace Repeating

theorem grow {w' : Session} (h : Repeating sys N held s w) (hgrow : Grows w w') :
    Repeating sys N held s w' where
  sound := hgrow.sound h.sound
  stalled := h.stalled.extend h.sound.canonical hgrow.terms
  counted := h.counted
  deep := hgrow.induction ▸ h.deep
  first := hgrow.induction ▸ h.first.extend hgrow.terms
  between := hgrow.induction ▸ h.between.extend hgrow.terms
  assumed ob hob := by
    obtain ⟨f, hf, hin⟩ := h.assumed ob hob
    exact ⟨f, hf.extend hgrow.terms, hgrow.induction ▸ hin⟩
  refuted ob hob := by
    obtain ⟨f, hf, hin⟩ := h.refuted ob hob
    exact ⟨f, hf.extend hgrow.terms, hin⟩
  forward := h.forward
  agenda := h.agenda
  undecided := h.undecided

theorem regroup {held' : List Obligation} {agenda : Agenda} {staged : List Obligation}
    {stats : Statistics} (h : Repeating sys N held s w) (hagenda : agenda.Valid)
    (hperm : (owed held s).Perm (owed held' { s with agenda, staged, stats })) :
    Repeating sys N held' { s with agenda, staged, stats } w where
  sound := h.sound
  stalled := h.stalled.perm hperm
  counted := hperm.length_eq ▸ h.counted
  deep := h.deep
  first := h.first
  between := h.between
  assumed ob hob := h.assumed ob (hperm.mem_iff.mpr hob)
  refuted ob hob := h.refuted ob (hperm.mem_iff.mpr hob)
  forward ob hob := h.forward ob (hperm.mem_iff.mpr hob)
  agenda := hagenda
  undecided := h.undecided

theorem carry {ob : Obligation} {stats : Statistics} (h : Repeating sys N [ob] s w) :
    Repeating sys N [] { s with staged := s.staged ++ [ob], stats }
      { w with
        induction := (w.induction.enter ob.forward .first).enter ob.forward .intermediate } := by
  have hin : ob ∈ owed [ob] s := List.mem_cons_self
  have hname := h.stalled.duties.forward_named hin
  have h' : Repeating sys N [] { s with staged := s.staged ++ [ob], stats } w :=
    h.regroup h.agenda (owed_carry ob s stats)
  exact { h' with
    sound := h.sound.congr rfl rfl
    first := List.forall_mem_append.mpr ⟨h.first, by simpa using hname⟩
    between := List.forall_mem_append.mpr ⟨h.between, by simpa using hname⟩
    assumed := fun o ho => by
      obtain ⟨f, hf, hin⟩ := h'.assumed o ho
      exact ⟨f, hf, List.mem_append_left _ hin⟩ }

end Repeating

theorem ends_recheck (h : Repeating sys N held s w) (hE : Excuses M E) {f : Formula} {r : StateSet}
    (hf : w.terms.Names f r) (hinit : ∀ x, sys.Initial x → r.contains x = true)
    {Q : InductionAnswer (List Nat) → Search × Session → Prop}
    (hQ : ∀ w', Grows w w' → Q .unsat (s, w')) :
    Action.Ends (Search.act ((backend M).oracle.checkInductive f)) (s, w) E Q := by
  refine ends_checkInductive h.sound h.deep h.first h.between hf (hE.overflow _) (hE.capacity _)
    (fun w' hgrow _ => hQ w' hgrow) fun g t w' a mid b _ hc _ _ => ?_
  have hb := h.stalled.initial_of_chain (clear_of_within h.assumed hc.first) hc.chain b (by simp)
  have hout := hc.outside
  rw [hinit b hb] at hout
  cases hout

theorem ends_repush {ob : Obligation} (h : Repeating sys N [ob.bare] s w) (hE : Excuses M E)
    {Q : Search.Push → Search × Session → Prop}
    (hQ : ∀ s' w', Repeating sys N [] s' w' → s'.agenda = s.agenda →
      s'.stats.rounds = s.stats.rounds → Q .staged (s', w')) :
    Action.Ends (Search.push (backend M) config ob) (s, w) E Q := by
  have hin : ob.bare ∈ owed [ob.bare] s := List.mem_cons_self
  rw [Search.push, Action.ends_bind]
  refine ends_report h.sound fun w₁ hgrow₁ => ?_
  have h₁ := h.grow hgrow₁
  obtain ⟨f, hf, _⟩ := h₁.refuted ob.bare hin
  rw [Action.ends_bind]
  refine ends_refutation h₁.sound (by exact hf) fun w₂ hgrow₂ => ?_
  have h₂ := h₁.grow hgrow₂
  have hf₂ := hf.extend hgrow₂.terms
  obtain ⟨r, hr⟩ := hf₂.named
  have hrefutation := fun x =>
    h₂.stalled.duties.refutation_of_initial h₂.sound.canonical h₂.sound.size hin hf₂ hr (x := x)
  rw [Action.ends_bind]
  refine ends_recheck h₂ hE hr hrefutation fun w₃ hgrow₃ => ?_
  have h₃ := h₂.grow hgrow₃
  change Action.Ends (Search.stage (backend M) ob f) (s, w₃) E Q
  rw [Search.stage, Action.ends_bind]
  refine ends_report h₃.sound fun w₄ hgrow₄ => ?_
  have h₄ := h₃.grow hgrow₄
  obtain ⟨r, _, hr, _, hforward, _⟩ :=
    h₄.stalled.duties.forward_spec h₄.sound.canonical h₄.sound.size hin
  rw [Action.ends_bind]
  refine ends_recheck h₄ hE hr hforward fun w₅ hgrow₅ => ?_
  exact ends_carry (hgrow₅.terms.names hr) fun stats hrounds =>
    hQ _ _ (h₄.grow hgrow₅).carry rfl hrounds

theorem ends_turn_again (h : Repeating sys N [] s w) (hE : Excuses M E)
    (hgo : s.agenda.isEmpty = false) {Q : Search.Push → Search × Session → Prop}
    (hQ : ∀ s' w', Repeating sys N [] s' w' →
      s.agenda.waiting.length = s'.agenda.waiting.length + 1 →
      s'.stats.rounds = s.stats.rounds → Q .staged (s', w')) :
    Action.Ends (Search.turn (backend M) config) (s, w) E Q := by
  rw [Search.turn, Action.ends_bind]
  refine ends_pop h.agenda hgo fun ob agenda hagenda hperm _ => ?_
  have hlen : s.agenda.waiting.length = agenda.waiting.length + 1 := hperm.length_eq
  have h₁ : Repeating sys N [ob.bare] { s with agenda, stats.queueSize := agenda.size } w :=
    h.regroup hagenda (by exact hperm.append_right s.staged)
  rw [Action.ends_bind]
  refine ends_repush h₁ hE fun s₂ w₂ h₂ hsame hrounds => ?_
  rw [if_neg (by simp)]
  refine hQ s₂ w₂ h₂ ?_ hrounds
  rw [hlen, hsame]

theorem ends_redrain (hE : Excuses M E) : ∀ {fuel : Nat} {s : Search} {w : Session},
    Repeating sys N [] s w → (fuel ≤ s.agenda.waiting.length → E .outOfFuel) →
    {Q : Nat → Search × Session → Prop} →
    (∀ rest s' w', fuel ≤ rest + s.agenda.waiting.length → Repeating sys N [] s' w' →
      s'.agenda.waiting = [] → s'.stats.rounds = s.stats.rounds → Q rest (s', w')) →
    Action.Ends (Search.drain (backend M) config fuel) (s, w) E Q
  | 0, _, _, _, hfuel, _, _ => hfuel (Nat.zero_le _)
  | fuel + 1, s, w, h, hfuel, Q, hdone => by
      rw [Search.drain_succ, Action.ends_bind, Search.ends_state]
      cases hempty : s.agenda.isEmpty with
      | true =>
          rw [Bool.true_or, if_pos rfl, Action.ends_pure]
          exact hdone _ s w (Nat.le_add_right _ _) h (h.agenda.isEmpty_iff_waiting.mp hempty) rfl
      | false =>
          rw [h.undecided, Bool.or_false, if_neg Bool.false_ne_true, Action.ends_bind]
          refine ends_turn_again h hE hempty fun s₂ w₂ h₂ hwaiting hrounds => ?_
          exact ends_redrain hE h₂ (fun hle => hfuel (by omega)) fun rest s' w' hle h' hnil hr =>
            hdone rest s' w' (by omega) h' hnil (hr.trans hrounds)

end Invariance.FiniteState
