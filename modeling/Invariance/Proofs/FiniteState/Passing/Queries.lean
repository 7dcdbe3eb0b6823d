import Invariance.Proofs.FiniteState.Passing.Enclosing
import Invariance.Proofs.FiniteState.Passing.Rounds
import Invariance.Proofs.FiniteState.Verdicts

/-!
Every state that a query passes through, from the moment when its loop is entered: the formulas of
the frame contain all states that are reached in as many steps as the index says.
-/

namespace Invariance.FiniteState

open Universe Session TransitionSystem

variable {config : Config} {fuel : Nat} {sys : TransitionSystem} {p : Formula}
  {e : Engine Session} {x : Search × Session}

/-- With this state a query enters its loop. -/
def Enters (fuel : Nat) (sys : TransitionSystem) (p : Formula) (e : Engine Session)
    (x : Search × Session) : Prop :=
  ∃ w, (backend).load sys (Engine.reset backend e).world = .ok () w ∧
    Search.enter backend fuel p (.blank, w) = .ok true x

/-- The states that a query passes through: the one in which its loop is entered, and those after
each move from there on. -/
def passed (config : Config) (fuel : Nat) (sys : TransitionSystem) (p : Formula)
    (e : Engine Session) : List (Search × Session) :=
  match (backend).load sys (Engine.reset backend e).world with
  | .error _ _ => []
  | .ok _ w =>
    match Search.enter backend fuel p (.blank, w) with
    | .ok true x => x :: (Search.loopCourse backend config fuel).visited x
    | _ => []

theorem Enters.passed_eq (h : Enters fuel sys p e x) :
    passed config fuel sys p e = x :: (Search.loopCourse backend config fuel).visited x := by
  obtain ⟨w, hload, henter⟩ := h
  simp only [passed, hload, henter]

theorem exists_enters (hx : x ∈ passed config fuel sys p e) : ∃ x₀, Enters fuel sys p e x₀ := by
  rw [passed] at hx
  split at hx
  · cases hx
  next hload =>
    split at hx
    next x₀ henter => exact ⟨x₀, _, hload, henter⟩
    next => cases hx

namespace Enters

theorem opened (h : Enters fuel sys p e x) : sys.size = e.world.terms.size ∧
    Search.enter backend fuel p (.blank, opened sys e.world) = .ok true x := by
  obtain ⟨w, hload, henter⟩ := h
  obtain ⟨cex, hreset⟩ := reset_eq (M := .word64) e
  rw [hreset, load_eq] at hload
  split at hload
  next hsize =>
    obtain ⟨_, rfl⟩ := EStateM.Result.ok.inj hload
    exact ⟨hsize, henter⟩
  next => cases hload

theorem final_query (h : Enters fuel sys p e x) :
    (Engine.query backend config fuel sys p).final e =
      { search := some ((Search.loop backend config fuel).final x).1
        world := ((Search.loop backend config fuel).final x).2 } := by
  obtain ⟨hsize, henter⟩ := h.opened
  have hrun : (Search.run backend config fuel p).final (.blank, FiniteState.opened sys e.world) =
      (Search.loop backend config fuel).final x := by
    rw [Search.run_eq, Action.final_bind, henter]
    rfl
  rw [Action.final, query_of_size hsize]
  change (Engine.onSearch .blank _).final _ = _
  rw [Engine.onSearch, Action.final_within, hrun]

/-- The engine that the query leaves holds the last of these states. -/
theorem final_passed (h : Enters fuel sys p e x) : ∃ y ∈ passed config fuel sys p e,
    (Engine.query backend config fuel sys p).final e = { search := some y.1, world := y.2 } :=
  ⟨_, h.passed_eq ▸ List.mem_cons_of_mem _ (Course.final_mem _ x), h.final_query⟩

theorem accepts (h : Enters fuel sys p e x) : e.world.terms.Accepts p := by
  obtain ⟨_, henter⟩ := h.opened
  cases heval : e.world.terms.eval p with
  | ok r => exact ⟨r, heval⟩
  | error flaw =>
      have hrefused : Search.enter backend fuel p (.blank, FiniteState.opened sys e.world) =
          .error flaw.toFault (.blank, FiniteState.opened sys e.world) := by
        simp only [Search.enter, bind, EStateM.bind, Search.act, Action.within, backend,
          vocabulary, Action.run_get, FiniteState.opened, heval]
        rfl
      rw [hrefused] at henter
      cases henter

theorem registering {n : Nat} (hbuilt : e.world.terms.Built n) (h : Enters fuel sys p e x) :
    Registering sys e.world (e.world.terms.Leaf p) x.1 x.2 := by
  obtain ⟨hu, _⟩ := hbuilt.canonical
  obtain ⟨hsize, henter⟩ := h.opened
  have hends : Action.Ends (Search.enter backend fuel p)
      (.blank, FiniteState.opened sys e.world) (fun _ => True) fun answer y => answer = true →
        Registering sys e.world (e.world.terms.Leaf p) y.1 y.2 :=
    ends_enter (loaded_opened hu hsize.symm) h.accepts (fun _ => trivial)
      (fun _ _ h₁ _ _ => h₁) fun _ _ _ _ h => by cases h
  exact hends.of_ok henter rfl

theorem encloses {n : Nat} (hbuilt : e.world.terms.Built n) (h : Enters fuel sys p e x) :
    Encloses sys x := by
  have h₁ := h.registering hbuilt
  exact ⟨h₁.sound.system, fun f hf => h₁.ample ((h₁.members f).mp hf),
    fun f hf => h₁.ample ((h₁.first f).mp hf), fun f hf => h₁.ample (h₁.between f hf),
    Or.inl h₁.index⟩

theorem opening {n : Nat} (hbuilt : e.world.terms.Built n) (h : Enters fuel sys p e x) :
    Opening sys e.world (e.world.terms.Leaf p) [] sys.size x.1 x.2 := by
  obtain ⟨hu, _⟩ := hbuilt.canonical
  refine (h.registering hbuilt).opening fun q hq => ?_
  obtain ⟨r, hr⟩ := (h.accepts.proper hu).leaf_names hq
  exact hr.live

end Enters

theorem encloses_passed {n : Nat} (hbuilt : e.world.terms.Built n)
    (hx : x ∈ passed config fuel sys p e) : Encloses sys x := by
  obtain ⟨x₀, h⟩ := exists_enters hx
  rw [h.passed_eq] at hx
  rcases List.mem_cons.mp hx with rfl | hx
  · exact h.encloses hbuilt
  · exact (follows_loop guided_encloses (fits_word64 sys) (h.encloses hbuilt)
      (h.opening hbuilt)).keeps.1 x hx

theorem query_overapproximates {n : Nat} (hbuilt : e.world.terms.Built n)
    (hx : x ∈ passed config fuel sys p e) {f : Formula}
    (hf : x.1.frame.contains f = true ∨ f ∈ x.2.induction.first ∨
      f ∈ x.2.induction.intermediate) {k y : Nat} (hy : sys.ReachedIn k y) (hk : k ≤ x.1.index) :
    x.2.terms.Holds f y := by
  have h := encloses_passed hbuilt hx
  have hinitial : sys.Initial y := by
    rcases h.closed with hzero | hclosed
    · rw [hzero, Nat.le_zero] at hk
      subst hk
      cases hy with
      | initial hy => exact hy
    · exact hclosed y hy.reachable
  obtain ⟨r, hr, hinit⟩ : x.2.terms.Ample sys f := by
    rcases hf with hf | hf | hf
    · exact h.members f hf
    · exact h.first f hf
    · exact h.between f hf
  exact (Universe.holds_iff hr).mpr (hinit y hinitial)

theorem dangling_overapproximated : ∃ x ∈ passed { maxFrames := 3 } 34 dangling ⟨0⟩ littered,
    x.1.index = 3 ∧ x.1.frame.contains ⟨4⟩ = true ∧ dangling.ReachedIn 1 0 ∧
      x.2.terms.Holds ⟨4⟩ 0 := by
  have hany : (passed { maxFrames := 3 } 34 dangling ⟨0⟩ littered).any (fun x =>
      decide (x.1.index = 3) && x.1.frame.contains ⟨4⟩) = true := by decide +kernel
  obtain ⟨x, hx, hboth⟩ := List.any_eq_true.mp hany
  obtain ⟨hindex, hframe⟩ := Bool.and_eq_true_iff.mp hboth
  have hindex' : x.1.index = 3 := of_decide_eq_true hindex
  have hinitial : dangling.Initial 0 := rfl
  have hedge : dangling.Edge 0 0 := ⟨.add (.empty 3) 0 (by decide), rfl, rfl⟩
  have hreached : dangling.ReachedIn 1 0 := .step (.initial hinitial) hedge
  exact ⟨x, hx, hindex', hframe, hreached, query_overapproximates built_littered hx
    (Or.inl hframe) hreached (by omega)⟩

end Invariance.FiniteState
