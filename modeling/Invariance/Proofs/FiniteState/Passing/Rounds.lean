import Invariance.Proofs.FiniteState.Passing.Draining
import Invariance.Proofs.FiniteState.Rounds

/-!
Following a search from round to round, and through the loop of a query.
-/

namespace Invariance.FiniteState

open Universe Session TransitionSystem

variable {M : Machine} {config : Config} {sys : TransitionSystem} {w₀ : Session}
  {I : Search × Session → Prop} {R : Search × Session → Search × Session → Prop}
  {P : Formula → Prop} {s : Search} {w : Session}

theorem follows_advance (hg : Guided M sys I R) (hx : I (s, w)) (hw : Sound sys w)
    (hstalled : Stalled sys w.terms s.staged)
    (hundecided : s.lineage.propertyInvalid = false) :
    (Search.advanceCourse (backend M) config).Follows I R (s, w) fun _ _ => True := by
  refine (calming adding_deepen (Search.fixed_deepen blind_ancestry)).after hg.calm hx
    (ends_deepen (excuses_all M) hw fun stats w₁ _ hgrow₁ hx₁ => ?_)
  have hw₁ : Sound sys w₁ :=
    hgrow₁.sound (w := { w with induction := { depth := s.index + 1 } }) (hw.congr rfl rfl)
  have hstalled₁ : Stalled sys w₁.terms s.staged := hstalled.extend hw.canonical hgrow₁.terms
  refine calming_state.after hg.calm hx₁ (Search.ends_state.mpr fun hx₁ =>
    Course.follows_branch (fun _ => ?_) fun _ => ?_)
  · exact calming_report.skip hg.calm hx₁ fun _ _ hx₂ => calming_pure.last hg.calm hx₂
  refine (hg.rebuild hx₁ hw₁ hstalled₁).andThen (ends_rebuild (excuses_all M) hw₁
    (by exact hstalled₁) rfl rfl (by rw [hgrow₁.induction]) (by exact hundecided)
    fun s₂ w₂ h₂ hnil _ hx₂ => ?_)
  refine Course.follows_of_ends ?_
  rw [Action.ends_bind]
  refine ends_sweep ⟨hx₂, hg.calm.relates (.refl _) (.refl _)⟩ fun journal => ?_
  rw [Action.ends_bind]
  exact ends_relocate h₂ hnil fun s₃ w₃ h₃ _ _ hmoved =>
    hg.relocated hx₂ h₂.sound.canonical hmoved h₃.sound.system

/-- What the search is like at the start of a round: of the first one, or of a later one. -/
def Beginning (sys : TransitionSystem) (s : Search) (w : Session) : Prop :=
  (∃ w₀ P n, Opening sys w₀ P [] n s w) ∨ ∃ N, Repeating sys N [] s w ∧ s.staged = []

/-- What it is like when nothing waits any more: it has an answer, or it has stalled. -/
def Finishing (sys : TransitionSystem) (s : Search) (w : Session) : Prop :=
  s.lineage.propertyInvalid = true ∨ s.frame.size = s.staged.length ∨
    s.lineage.propertyInvalid = false ∧ Sound sys w ∧ Stalled sys w.terms s.staged

theorem follows_drainFrame (hg : Guided M sys I R) (hM : M.Fits (sys.size + 2)) (hx : I (s, w))
    (h : Beginning sys s w) {fuel : Nat} :
    (Search.drainFrameCourse (backend M) config fuel).Follows I R (s, w) fun _ _ => True := by
  have hdrain : (Search.drainCourse (backend M) config fuel).Follows I R (s, w)
      fun _ _ => True := by
    rcases h with ⟨w₀, P, n, h⟩ | ⟨N, h, _⟩
    · exact follows_drain hg hM hx h
    · exact follows_redrain hg hx h
  refine hdrain.andThen (Action.ends_trivial.imp fun rest y _ hy => ?_)
  refine Course.follows_branch (fun _ => ?_) fun _ => calming_pure.last hg.calm hy
  exact (calming adding_saveGraph Search.fixed_saveGraph).skip hg.calm hy fun _ _ hz =>
    calming_pure.last hg.calm hz

theorem ends_finishing (hM : M.Fits (sys.size + 2)) (h : Beginning sys s w) {fuel : Nat}
    {Q : Nat → Search × Session → Prop}
    (hQ : ∀ rest s' w', Finishing sys s' w' → Q rest (s', w')) :
    Action.Ends (Search.drainFrame (backend M) config fuel) (s, w) (fun _ => True) Q := by
  suffices hends : Action.Ends (Search.drain (backend M) config fuel) (s, w) (fun _ => True)
      fun rest t => Sound sys t.2 ∧ ∀ w', Grows t.2 w' → Q rest (t.1, w') from
    ends_drainFrame (fun _ _ => trivial) hends
  rcases h with ⟨w₀, P, n, h⟩ | ⟨N, h, hnil⟩
  · refine ends_drain hM h (fun _ => trivial)
      (fun rest m s₁ w₁ _ h₁ hempty _ => ⟨h₁.sound, fun w₂ hgrow₂ => hQ _ _ _ ?_⟩)
      fun rest s₁ w₁ _ h₁ _ => ⟨h₁.sound, fun w₂ _ => hQ _ _ _ (Or.inl h₁.flagged)⟩
    have h₂ := h₁.grow hgrow₂
    by_cases hsize : s₁.frame.size = s₁.staged.length
    · exact Or.inr (Or.inl hsize)
    · exact Or.inr (Or.inr ⟨h₂.undecided, h₂.sound, (h₂.stalled hempty hsize).2⟩)
  · refine ends_redrain (excuses_all M) h (fun _ => trivial)
      fun rest s₁ w₁ _ h₁ hempty _ => ⟨h₁.sound, fun w₂ hgrow₂ => hQ _ _ _ ?_⟩
    have h₂ := h₁.grow hgrow₂
    have hstalled := h₂.stalled
    rw [Opening.owed_eq hempty] at hstalled
    exact Or.inr (Or.inr ⟨h₂.undecided, h₂.sound, hstalled⟩)

theorem follows_rounds (hg : Guided M sys I R) (hM : M.Fits (sys.size + 2)) :
    ∀ {bound fuel : Nat} {s : Search} {w : Session}, I (s, w) → Beginning sys s w →
    (Search.roundsCourse (backend M) config bound fuel).Follows I R (s, w) fun _ _ => True
  | 0, _, _, _, hx, _ => calming_throw.last hg.calm hx
  | bound + 1, fuel, s, w, hx, h => by
      refine (follows_drainFrame hg hM hx h).andThen
        (ends_finishing hM h fun rest s₁ w₁ h₁ hx₁ => ?_)
      refine Course.Stays.after (calming_change fun _ => ⟨rfl, rfl, rfl⟩) hg.calm hx₁
        (Search.ends_change.mpr fun hx₂ => ?_)
      refine calming_state.after hg.calm hx₂ (Search.ends_state.mpr fun hx₂ => ?_)
      refine Course.follows_branch (fun _ => calming_pure.last hg.calm hx₂) fun hvalid =>
        Course.follows_branch (fun _ => ?_) fun hsize => ?_
      · exact (calming adding_showInvariant Search.fixed_showInvariant).skip hg.calm hx₂
          fun _ _ hx₃ => calming_pure.last hg.calm hx₃
      · obtain ⟨hundecided, hw, hstalled⟩ := (h₁.resolve_left hvalid).resolve_left hsize
        refine (follows_advance hg hx₂ hw hstalled hundecided).andThen
          (ends_advance (excuses_all M) hw (by exact hstalled) (by exact hundecided)
            (fun s₃ w₃ _ _ _ _ hx₃ => ?_) fun s₃ w₃ _ h₃ hnil _ hx₃ => ?_)
        · exact Course.follows_branch (fun h => by cases h) fun _ => calming_pure.last hg.calm hx₃
        · exact Course.follows_branch (fun _ => follows_rounds hg hM hx₃ (Or.inr ⟨_, h₃, hnil⟩))
            fun h => absurd rfl h

theorem follows_loop (hg : Guided M sys I R) (hM : M.Fits (sys.size + 2)) {n fuel : Nat}
    (hx : I (s, w)) (h : Opening sys w₀ P [] n s w) :
    (Search.loopCourse (backend M) config fuel).Follows I R (s, w) fun _ _ => True := by
  refine calming_report.after hg.calm hx (ends_report h.sound fun w₁ hgrow₁ hx₁ => ?_)
  have hbegin : Beginning sys s w₁ := Or.inl ⟨w₀, P, n, h.grow hgrow₁⟩
  refine (follows_rounds hg hM hx₁ hbegin).attempt.andThen
    (Action.ends_trivial.imp fun result y _ hy => ?_)
  refine Course.Stays.skip (calming_change fun _ => ⟨rfl, rfl, rfl⟩) hg.calm hy fun _ y₂ hx₂ => ?_
  refine (calming adding_ofAttempt (Search.fixed_ofAttempt _)).skip hg.calm hx₂
    fun outcome y₃ hx₃ => ?_
  refine calming_report.skip hg.calm hx₃ fun _ y₄ hx₄ => ?_
  refine Course.Stays.skip (calming_change fun _ => ⟨rfl, rfl, rfl⟩) hg.calm hx₄ fun _ y₅ hx₅ => ?_
  exact calming_pure.last hg.calm hx₅

end Invariance.FiniteState
