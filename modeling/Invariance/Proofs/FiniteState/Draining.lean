import Invariance.Proofs.FiniteState.Opening
import Invariance.Proofs.Search.Turns

/-!
Draining the first frame. Twice the number of clear states and the number of waiting obligations
together go down with each pop, so the agenda runs empty or the property is disproved.
-/

namespace Invariance.FiniteState

open Universe Session TransitionSystem

variable {M : Machine} {sys : TransitionSystem} {w₀ : Session} {P : Formula → Prop}
  {n : Nat} {s : Search} {w : Session} {E : Fault → Prop} {config : Config}

theorem ends_requeue {ob : Obligation} (h : Opening sys w₀ P [ob.bare] n s w)
    {Q : Unit → Search × Session → Prop}
    (hQ : ∀ s' w', Opening sys w₀ P [] n s' w' → Extends w.terms w'.terms →
      s'.agenda.waiting.length = s.agenda.waiting.length + 1 → s'.lineage = s.lineage →
      s'.stats.rounds = s.stats.rounds → Q () (s', w')) :
    Action.Ends (Search.enqueue (backend M) ob) (s, w) E Q := by
  obtain ⟨f, hf, hin⟩ := h.covers.refuted ob.bare List.mem_cons_self
  have hfresh : ∀ o ∈ s.agenda.waiting, o.counter ≠ ob.counter := fun o ho heq => by
    have hnodup := h.duties.distinct
    rw [owed, List.singleton_append, List.map_cons, List.nodup_cons] at hnodup
    exact hnodup.1 (List.mem_map.mpr ⟨o, List.mem_append_left _ ho, heq⟩)
  refine ends_enqueue h.sound h.agenda (by exact hf) hin hfresh
    fun agenda w₁ hgrow₁ hagenda hperm => ?_
  exact hQ _ w₁ ((h.grow hgrow₁).regroup hagenda hperm.symm) hgrow₁.terms
    (by simpa using hperm.length_eq) rfl rfl

theorem ends_turn (h : Opening sys w₀ P [] n s w) (hM : M.Fits (sys.size + 2))
    (hgo : s.agenda.isEmpty = false) {Q : Search.Push → Search × Session → Prop}
    (hstaged : ∀ s' w', Opening sys w₀ P [] n s' w' →
      s.agenda.waiting.length = s'.agenda.waiting.length + 1 → s'.lineage = s.lineage →
      s'.stats.rounds = s.stats.rounds → Q .staged (s', w'))
    (hrefined : ∀ m s' w', n = m + 1 → Opening sys w₀ P [] m s' w' →
      (∃ a, Learns sys w'.terms s.lineage s'.lineage a) →
      s'.agenda.waiting.length = s.agenda.waiting.length + 1 → s'.stats.rounds = s.stats.rounds →
      Q .refined (s', w'))
    (hfailed : ∀ s' w', Disproved sys w₀ P config.extend s' w' →
      s'.stats.rounds = s.stats.rounds → Q .failed (s', w')) :
    Action.Ends (Search.turn (backend M) config) (s, w) E Q := by
  rw [Search.turn, Action.ends_bind]
  refine ends_pop h.agenda hgo fun ob agenda hagenda hperm hmin => ?_
  have hlen : s.agenda.waiting.length = agenda.waiting.length + 1 := hperm.length_eq
  have h₁ : Opening sys w₀ P [ob.bare] n { s with agenda, stats.queueSize := agenda.size } w :=
    h.regroup hagenda hperm
  rw [Action.ends_bind]
  refine ends_push h₁ hmin hM (fun s₂ w₂ h₂ hsame hlineage hrounds => ?_)
    (fun m s₂ w₂ hm h₂ hlearns hwaiting hrounds => ?_) fun s₂ w₂ h₂ hrounds => ?_
  · rw [if_neg (by simp)]
    refine hstaged s₂ w₂ h₂ ?_ hlineage hrounds
    rw [hlen, hsame]
  · rw [if_pos rfl, Action.ends_bind]
    refine ends_requeue h₂ fun s₃ w₃ h₃ hext₃ hwaiting₃ hlineage₃ hrounds₃ => ?_
    obtain ⟨a, ha⟩ := hlearns
    refine hrefined m s₃ w₃ hm h₃ ⟨a, hlineage₃ ▸ ha.extend hext₃⟩ ?_ (hrounds₃.trans hrounds)
    rw [hwaiting₃, hwaiting, hlen]
  · rw [if_neg (by simp)]
    exact hfailed s₂ w₂ h₂ hrounds

/-- The fuel that draining takes at most, less the one unit that it leaves. -/
def burden (n : Nat) (s : Search) : Nat := 2 * n + s.agenda.waiting.length

theorem drain_of_disproved {extend : Bool} (h : Disproved sys w₀ P extend s w) {fuel : Nat}
    {Q : Nat → Search × Session → Prop} (hzero : fuel = 0 → E .outOfFuel) (hQ : Q fuel (s, w)) :
    Action.Ends (Search.drain (backend M) config fuel) (s, w) E Q := by
  cases fuel with
  | zero => exact hzero rfl
  | succ fuel =>
      rw [Search.drain, Action.ends_bind, Search.ends_state, if_pos (by simp [h.flagged])]
      exact hQ

theorem ends_drain (hM : M.Fits (sys.size + 2)) : ∀ {fuel n : Nat} {s : Search} {w : Session},
    Opening sys w₀ P [] n s w → (fuel ≤ burden n s → E .outOfFuel) →
    {Q : Nat → Search × Session → Prop} →
    (∀ rest m s' w', fuel ≤ rest + burden n s → Opening sys w₀ P [] m s' w' →
      s'.agenda.waiting = [] → s'.stats.rounds = s.stats.rounds → Q rest (s', w')) →
    (∀ rest s' w', fuel ≤ rest + burden n s → Disproved sys w₀ P config.extend s' w' →
      s'.stats.rounds = s.stats.rounds → Q rest (s', w')) →
    Action.Ends (Search.drain (backend M) config fuel) (s, w) E Q
  | 0, _, _, _, _, hfuel, _, _, _ => hfuel (Nat.zero_le _)
  | fuel + 1, n, s, w, h, hfuel, Q, hdone, hfailed => by
      rw [Search.drain_succ, Action.ends_bind, Search.ends_state]
      cases hempty : s.agenda.isEmpty with
      | true =>
          rw [Bool.true_or, if_pos rfl, Action.ends_pure]
          exact hdone _ n s w (Nat.le_add_right _ _) h (h.agenda.isEmpty_iff_waiting.mp hempty) rfl
      | false =>
          rw [h.undecided, Bool.or_false, if_neg Bool.false_ne_true, Action.ends_bind]
          refine ends_turn h hM hempty (fun s₂ w₂ h₂ hwaiting _ hrounds => ?_)
            (fun m s₂ w₂ hm h₂ _ hwaiting hrounds => ?_) fun s₂ w₂ h₂ hrounds => ?_
          · -- staged: one obligation less waits
            have hburden : burden n s = burden n s₂ + 1 := by
              rw [burden, burden, hwaiting]
              rfl
            exact ends_drain hM h₂ (fun hle => hfuel (by omega))
              (fun rest m' s' w' hle h' hnil hr =>
                hdone rest m' s' w' (by omega) h' hnil (hr.trans hrounds))
              fun rest s' w' hle h' hr => hfailed rest s' w' (by omega) h' (hr.trans hrounds)
          · -- refined: one state less is clear, and one obligation more waits
            have hburden : burden n s = burden m s₂ + 1 := by
              rw [burden, burden, hwaiting, hm]
              omega
            exact ends_drain hM h₂ (fun hle => hfuel (by omega))
              (fun rest m' s' w' hle h' hnil hr =>
                hdone rest m' s' w' (by omega) h' hnil (hr.trans hrounds))
              fun rest s' w' hle h' hr => hfailed rest s' w' (by omega) h' (hr.trans hrounds)
          · have hpos : 0 < burden n s :=
              Nat.lt_of_lt_of_le (h.agenda.waiting_pos hempty) (Nat.le_add_left _ _)
            exact drain_of_disproved h₂ (fun hzero => hfuel (by omega))
              (hfailed fuel s₂ w₂ (by omega) h₂ hrounds)

end Invariance.FiniteState
