import Invariance.Proofs.FiniteState.Passing.Guides
import Invariance.Proofs.FiniteState.Repeating

/-!
Following a search while it drains a frame. In the first round a counter-state is learnt only if it
is not initial; in a later round nothing is learnt at all.
-/

namespace Invariance.FiniteState

open Universe Session TransitionSystem

variable {M : Machine} {config : Config} {sys : TransitionSystem} {w₀ : Session}
  {I : Search × Session → Prop} {R : Search × Session → Search × Session → Prop}
  {P : Formula → Prop} {n N : Nat} {s : Search} {w : Session} {ob : Obligation} {a : Nat}

/-! The first round. -/

theorem follows_answerCounter (hg : Guided M sys I R) {f g : Formula} {model : List Nat}
    (hx : I (s, w)) (h : Opening sys w₀ P [ob.bare] n s w) (hM : M.Fits (sys.size + 2))
    (hf : Refutes w.terms f ob.bare) (hc : Challenged sys w.terms (owed [ob.bare] s) f g a) :
    (Search.answerCounterCourse (backend M) config ob f g model).Follows I R (s, w)
      fun _ _ => True := by
  refine calming_report.after hg.calm hx (ends_report h.sound fun w₁ hgrow₁ hx₁ => ?_)
  have h₁ := h.grow hgrow₁
  have hc₁ := hc.extend h.duties hgrow₁.terms
  obtain ⟨t, ht, ha⟩ := hc₁.single
  have hwindow : Search.window M s.index s.depth = .ok (0, 0) := by
    rw [h.index, h.depth, Search.window, hM.add_eq (by omega)]
    rfl
  refine calming_state.after hg.calm hx₁ (Search.ends_state.mpr fun hx₁ => ?_)
  refine (calming adding_ofExcept (Search.fixed_ofExcept _)).after hg.calm hx₁ ?_
  change Action.Ends (Action.ofExcept (Search.window M s.index s.depth)) _ _ _
  rw [hwindow, Action.ends_ofExcept_ok]
  intro hx₁
  refine (calming adding_checkReachable (Search.fixed_act _)).after hg.calm hx₁
    (ends_checkReachable h₁.sound h₁.layers ht ha (fun hno hx₂ => ?_)
      fun _ _ _ _ _ hx₂ => ?_)
  · refine calming_report.after hg.calm hx₂ (ends_report h₁.sound fun w₃ hgrow₃ hx₃ => ?_)
    exact Course.follows_branch (fun h => by cases h) fun _ =>
      hg.refine hx₃ (h₁.grow hgrow₃) (hf.extend (hgrow₁.trans hgrow₃).terms)
        (hc₁.extend h₁.duties hgrow₃.terms) hno
  · refine calming_report.skip hg.calm hx₂ fun _ y₃ hx₃ => ?_
    refine Course.follows_branch (fun _ => ?_) fun h => absurd rfl h
    exact calming_failInduction.skip hg.calm hx₃ fun _ _ hx₄ => calming_pure.last hg.calm hx₄

theorem follows_push (hg : Guided M sys I R) (hx : I (s, w))
    (h : Opening sys w₀ P [ob.bare] n s w) (hM : M.Fits (sys.size + 2)) :
    (Search.pushCourse (backend M) config ob).Follows I R (s, w) fun _ _ => True := by
  have hin : ob.bare ∈ owed [ob.bare] s := List.mem_cons_self
  refine calming_report.after hg.calm hx (ends_report h.sound fun w₁ hgrow₁ hx₁ => ?_)
  have h₁ := h.grow hgrow₁
  obtain ⟨f, hf, _⟩ := h₁.covers.refuted ob.bare hin
  refine calming_negate.after hg.calm hx₁
    (ends_refutation h₁.sound (by exact hf) fun w₂ hgrow₂ hx₂ => ?_)
  have h₂ := h₁.grow hgrow₂
  have hf₂ := hf.extend hgrow₂.terms
  obtain ⟨r, hr⟩ := hf₂.named
  refine calming_checkInductive.after hg.calm hx₂ (ends_checkStep h₂.sound h₂.deep h₂.named
    h₂.between (hM.mono (by omega)) hr (fun w₃ hgrow₃ _ hx₃ => ?_)
    fun g t w₃ a b hgrow₃ ha hedge hb hc ht hx₃ => ?_)
  all_goals have h₃ := h₂.grow hgrow₃
  · have hample := h₃.duties.forward_ample h₃.sound.canonical h₃.sound.size hin
    exact hg.stage hx₃ hample
  · have hclear := clear_of_within h₂.assumes.refuted ha
    exact follows_answerCounter hg hx₃ h₃ hM (hf₂.extend hgrow₃.terms)
      ⟨(h₂.duties.clear_iff hgrow₃.terms).mpr hclear, ⟨t, hc, ht⟩, b, r,
        hgrow₃.terms.names hr, hedge, hb⟩

theorem follows_drain_of_disproved (hg : Guided M sys I R) {extend : Bool} (hx : I (s, w))
    (h : Disproved sys w₀ P extend s w) : ∀ fuel,
    (Search.drainCourse (backend M) config fuel).Follows I R (s, w) fun _ _ => True
  | 0 => calming_throw.last hg.calm hx
  | fuel + 1 => calming_state.after hg.calm hx (Search.ends_state.mpr fun hx =>
      Course.follows_branch (fun _ => calming_pure.last hg.calm hx)
        fun hgo => absurd (by simp [h.flagged]) hgo)

theorem follows_drain (hg : Guided M sys I R) (hM : M.Fits (sys.size + 2)) :
    ∀ {fuel n : Nat} {s : Search} {w : Session}, I (s, w) → Opening sys w₀ P [] n s w →
    (Search.drainCourse (backend M) config fuel).Follows I R (s, w) fun _ _ => True
  | 0, _, _, _, hx, _ => calming_throw.last hg.calm hx
  | fuel + 1, n, s, w, hx, h => by
      refine calming_state.after hg.calm hx (Search.ends_state.mpr fun hx =>
        Course.follows_branch (fun _ => calming_pure.last hg.calm hx) fun hgo => ?_)
      have hempty : s.agenda.isEmpty = false := by
        rw [Bool.or_eq_true, not_or, Bool.not_eq_true] at hgo
        exact hgo.1
      refine calming_pop.after hg.calm hx (ends_pop h.agenda hempty
        fun ob agenda hagenda hperm hmin hx₁ => ?_)
      have h₁ : Opening sys w₀ P [ob.bare] n { s with agenda, stats.queueSize := agenda.size } w :=
        h.regroup hagenda hperm
      refine (follows_push hg hx₁ h₁ hM).andThen (ends_push h₁ hmin hM
        (fun s₂ w₂ h₂ _ _ _ hx₂ => ?_) (fun m s₂ w₂ _ h₂ _ _ _ hx₂ => ?_)
        fun s₂ w₂ h₂ _ hx₂ => ?_)
      · exact Course.follows_branch (fun h => by cases h) fun _ => follows_drain hg hM hx₂ h₂
      · refine Course.follows_branch (fun _ => ?_) fun h => absurd rfl h
        exact (calming_enqueue ob).after hg.calm hx₂ (ends_requeue h₂ fun s₃ w₃ h₃ _ _ _ _ hx₃ =>
          follows_drain hg hM hx₃ h₃)
      · exact Course.follows_branch (fun h => by cases h) fun _ =>
          follows_drain_of_disproved hg hx₂ h₂ fuel

/-! A later round. -/

theorem excuses_all (M : Machine) : Excuses M fun _ => True :=
  ⟨fun _ _ => trivial, fun _ _ => trivial⟩

theorem follows_repush (hg : Guided M sys I R) (hx : I (s, w))
    (h : Repeating sys N [ob.bare] s w) :
    (Search.pushCourse (backend M) config ob).Follows I R (s, w) fun _ _ => True := by
  have hin : ob.bare ∈ owed [ob.bare] s := List.mem_cons_self
  refine calming_report.after hg.calm hx (ends_report h.sound fun w₁ hgrow₁ hx₁ => ?_)
  have h₁ := h.grow hgrow₁
  obtain ⟨f, hf, _⟩ := h₁.refuted ob.bare hin
  refine calming_negate.after hg.calm hx₁
    (ends_refutation h₁.sound (by exact hf) fun w₂ hgrow₂ hx₂ => ?_)
  have h₂ := h₁.grow hgrow₂
  have hf₂ := hf.extend hgrow₂.terms
  obtain ⟨r, hr⟩ := hf₂.named
  have hinit := fun x =>
    h₂.stalled.duties.refutation_of_initial h₂.sound.canonical h₂.sound.size hin hf₂ hr (x := x)
  refine calming_checkInductive.after hg.calm hx₂ (ends_recheck h₂ (excuses_all M) hr hinit
    fun w₃ hgrow₃ hx₃ => ?_)
  have h₃ := h₂.grow hgrow₃
  have hample := h₃.stalled.duties.forward_ample h₃.sound.canonical h₃.sound.size hin
  exact hg.stage hx₃ hample

theorem follows_redrain (hg : Guided M sys I R) :
    ∀ {fuel : Nat} {s : Search} {w : Session}, I (s, w) → Repeating sys N [] s w →
    (Search.drainCourse (backend M) config fuel).Follows I R (s, w) fun _ _ => True
  | 0, _, _, hx, _ => calming_throw.last hg.calm hx
  | fuel + 1, s, w, hx, h => by
      refine calming_state.after hg.calm hx (Search.ends_state.mpr fun hx =>
        Course.follows_branch (fun _ => calming_pure.last hg.calm hx) fun hgo => ?_)
      have hempty : s.agenda.isEmpty = false := by
        rw [Bool.or_eq_true, not_or, Bool.not_eq_true] at hgo
        exact hgo.1
      refine calming_pop.after hg.calm hx (ends_pop h.agenda hempty
        fun ob agenda hagenda hperm _ hx₁ => ?_)
      have h₁ : Repeating sys N [ob.bare] { s with agenda, stats.queueSize := agenda.size } w :=
        h.regroup hagenda (by exact hperm.append_right s.staged)
      refine (follows_repush hg hx₁ h₁).andThen (ends_repush h₁ (excuses_all M)
        fun s₂ w₂ h₂ _ _ hx₂ => ?_)
      exact Course.follows_branch (fun h => by cases h) fun _ => follows_redrain hg hx₂ h₂

end Invariance.FiniteState
