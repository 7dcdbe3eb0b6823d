import Invariance.Proofs.Search.Fixed
import Invariance.Proofs.Transcripts.Rules

/-!
How a run leaves the search. The outcome is set last of all, so a run that stops with a fault has
none; and whatever the rounds staged is gone after an answer and after an error. No run answers that
the outcome is unknown: a verdict that a solver does not give is an error.
-/

namespace Invariance.Search

variable {S σ μ α δ : Type} {B : Backend S σ μ} {config : Config} {fuel : Nat} {property : Formula}
  {v : Search → δ} {s : Search} {w : σ}

theorem Fixed.yields {act : SearchM σ α} {c : Course act} (h : Fixed v c) (x : Search × σ) :
    act.Yields x (fun _ t => v t.1 = v x.1) fun _ t => v t.1 = v x.1 := by
  have hfinal := h.final x
  rw [Action.final] at hfinal
  rw [Action.Yields]
  cases hrun : act x <;> rwa [hrun] at hfinal

/-- A broken contract in the rounds stops the run before anything is tidied up. -/
def Halted (fault : Fault) (s : Search) : Prop :=
  s.outcome = none ∧ ∀ e, fault = .error e → s.staged = []

def Concluded (outcome : Outcome) (s : Search) : Prop :=
  s.outcome = some outcome ∧ s.staged = []

theorem loop_ending (houtcome : s.outcome = none) :
    (loop B config fuel).Yields (s, w) (fun fault t => Halted fault t.1)
      fun outcome t => Concluded outcome t.1 := by
  have hrounds : Fixed Search.outcome (roundsCourse B config fuel fuel) :=
    fixed_rounds (fun _ _ _ _ _ _ _ _ => rfl) (fun _ _ => rfl) (fun _ _ => rfl) fuel fuel
  refine .bind (Action.Yields.bind ((hrounds.yields (s, _)).caught.mono (fun fault t h => ?_)
    fun result t h => ?_))
  · exact ⟨h.1.trans houtcome, fun e he => absurd he (h.2 e)⟩
  · rcases h with ⟨outcome, rfl, hkept⟩ | ⟨e, rfl, hkept⟩
    · exact ⟨rfl, rfl⟩
    · exact ⟨hkept.trans houtcome, fun _ _ => rfl⟩

theorem run_ending (houtcome : s.outcome = none) (hstaged : s.staged = []) :
    (run B config fuel property).Yields (s, w) (fun fault t => Halted fault t.1)
      fun outcome t => Concluded outcome t.1 := by
  have henter : Fixed (fun s => (s.outcome, s.staged)) (enterCourse B fuel property) :=
    fixed_enter (fun _ _ _ _ _ _ _ _ => rfl) (fun _ _ => rfl) fuel property
  rw [run_eq]
  refine .bind ((henter.yields (s, w)).mono (fun fault t h => ?_) fun answer t h => ?_)
  all_goals
    have h₁ : t.1.outcome = none := (congrArg Prod.fst h).trans houtcome
    have h₂ : t.1.staged = [] := (congrArg Prod.snd h).trans hstaged
  · exact ⟨h₁, fun _ _ => h₂⟩
  · exact .ite (fun _ => loop_ending h₁) fun _ => ⟨rfl, h₂⟩

theorem rounds_decided : ∀ (bound fuel : Nat) (x : Search × σ),
    (rounds B config bound fuel).Yields x (fun _ _ => True) fun outcome _ => outcome ≠ .unknown
  | 0, _, _ => Action.yields_throw trivial
  | bound + 1, fuel, x => by
      refine .bind (.of_forall (fun _ _ => trivial) fun rest x₁ => .bind (.bind ?_))
      refine .ite (fun _ => Action.yields_pure nofun) fun _ => .ite (fun _ => .bind ?_) fun _ =>
        .bind ?_
      · exact .of_forall (fun _ _ => trivial) fun _ _ => Action.yields_pure nofun
      · refine .of_forall (fun _ _ => trivial) fun more x₂ => ?_
        exact .ite (fun _ => rounds_decided bound rest x₂) fun _ => Action.yields_pure nofun

theorem loop_decided (x : Search × σ) :
    (loop B config fuel).Yields x (fun _ _ => True) fun outcome _ => outcome ≠ .unknown := by
  refine .bind (Action.Yields.bind ((rounds_decided fuel fuel _).attempt.imp fun result t h => ?_))
  rcases h with ⟨outcome, rfl, hdecided⟩ | ⟨e, rfl, _⟩
  · exact hdecided
  · trivial

theorem run_decided (x : Search × σ) :
    (run B config fuel property).Yields x (fun _ _ => True) fun outcome _ =>
      outcome ≠ .unknown := by
  rw [run_eq]
  refine .bind (.of_forall (fun _ _ => trivial) fun answer t => ?_)
  exact .ite (fun _ => loop_decided t) fun _ => .bind (.of_forall (fun _ _ => trivial) nofun)

end Invariance.Search

namespace Invariance.Engine

variable {S σ μ : Type} {B : Backend S σ μ} {config : Config} {fuel : Nat} {system : S}
  {property : Formula} {e : Engine σ}

theorem reset_search (B : Backend S σ μ) (e : Engine σ) : (reset B e).search = none := by
  obtain ⟨search, _⟩ := e
  cases search <;> rfl

theorem query_ending : (query B config fuel system property).Yields e
    (fun fault t => ∀ s, t.search = some s → Search.Halted fault s)
    fun outcome t => ∃ s, t.search = some s ∧ Search.Concluded outcome s := by
  refine Action.Yields.bind (Action.Yields.bind (Action.Yields.within ?_))
  rw [Action.Yields]
  cases B.load system (reset B e).world with
  | error fault w =>
      intro s hs
      cases (reset_search B e).symm.trans hs
  | ok _ w =>
      refine Action.Yields.within ((Search.run_ending rfl rfl).mono (fun fault t h s hs => ?_)
        fun outcome t h => ⟨t.1, rfl, h⟩)
      obtain rfl := Option.some.inj hs
      exact h

theorem query_decided {outcome : Outcome} {e' : Engine σ}
    (h : query B config fuel system property e = .ok outcome e') : outcome ≠ .unknown := by
  have hquery : (query B config fuel system property).Yields e (fun _ _ => True) fun outcome _ =>
      outcome ≠ .unknown := by
    refine .bind (.bind (.of_forall (fun _ _ => trivial) fun _ e₁ => ?_))
    exact .within (Search.run_decided (.blank, e₁.world))
  exact hquery.of_ok h

end Invariance.Engine
