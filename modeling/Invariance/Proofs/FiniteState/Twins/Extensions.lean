import Invariance.Proofs.FiniteState.Twins.Searches
import Invariance.Search.Extension

/-!
Counterexamples side by side: both searches assert the same constraints step by step, get the same
verdicts and models, and climb through lineages that are alike.
-/

namespace Invariance.FiniteState

open Universe Session

variable {M : Machine} {config : Config} {k : Nat} {x y : Search × Session} {f g : Formula}

theorem attends_constrain (h : Alongside (k + 1) x y) (hfg : Twin x.2.terms y.2.terms f g)
    (j : Nat) :
    Attends (k + 1) Same
      (do Search.act ((backend M).solver.assert (← Search.step ((backend M).recorder.atStep f j))))
      (do Search.act ((backend M).solver.assert (← Search.step ((backend M).recorder.atStep g j))))
      x y :=
  (attends_atStep h hfg j).bind fun _ _ _ _ hx₁ hstep =>
    attends_act hx₁.alongside (mirrors_assert hx₁.alongside.session hstep)

theorem attends_ensureDepth (h : Alongside k x y) (j : Nat) :
    Attends k Same (Search.update ((backend M).solver.ensureDepth j))
      (Search.update ((backend M).solver.ensureDepth j)) x y := by
  refine attends_update h ⟨{ h.session with paths := ?_ }, .refl _, .refl _⟩
  have hdepth : max x.2.paths.depth j = max y.2.paths.depth j := by rw [h.session.paths.depth]
  exact { h.session.paths with depth := hdepth }

theorem attends_assertFalseAt (h : Alongside (k + 1) x y) (hfg : Twin x.2.terms y.2.terms f g)
    (j : Nat) :
    Attends (k + 1) Same (Search.assertFalseAt (backend M) f j)
      (Search.assertFalseAt (backend M) g j) x y :=
  (attends_ensureDepth h j).bind fun _ _ _ _ hx₁ _ =>
    (attends_negate hx₁.alongside (hx₁.twin hfg)).bind fun _ _ _ _ hx₂ hn =>
      attends_constrain hx₂.alongside hn j

theorem attends_assertTrace {trace trace' : List Formula} : ∀ {j : Nat} {x y : Search × Session},
    Alongside (k + 1) x y → List.Forall₂ (Twin x.2.terms y.2.terms) trace trace' →
    Attends (k + 1) Same (Search.assertTrace (backend M) j trace)
      (Search.assertTrace (backend M) j trace') x y := by
  induction trace generalizing trace' with
  | nil =>
      intro j x y h htrace
      cases htrace
      exact attends_pure h rfl
  | cons f trace ih =>
      intro j x y h htrace
      cases htrace with
      | cons hfg htrace =>
          refine (attends_atStep h hfg j).bind fun c c' x₁ y₁ hx₁ hstep => ?_
          refine (attends_act hx₁.alongside
            (mirrors_assert hx₁.alongside.session hstep)).bind fun _ _ x₂ y₂ hx₂ _ => ?_
          exact ih hx₂.alongside (htrace.imp fun _ _ ht => (hx₁.trans hx₂).twin ht)

theorem attends_recordModel (h : Alongside k x y) :
    Attends k Same (Search.recordModel (backend M)) (Search.recordModel (backend M)) x y := by
  refine (attends_act h (mirrors_model h.session)).bind fun path path' x₁ y₁ hx₁ hpath => ?_
  have hsame : path = path' := hpath
  have h₁ := hx₁.alongside
  exact attends_update h₁ ⟨{ h₁.session with trace := hsame }, .refl _, .refl _⟩

theorem attends_climb : ∀ {bound : Nat} {f g : Formula} {j : Nat} {x y : Search × Session},
    Alongside (k + 1) x y → Twin x.2.terms y.2.terms f g →
    Attends (k + 1) Same (Search.climb (backend M) bound f j)
      (Search.climb (backend M) bound g j) x y
  | 0, _, _, _, _, _, h, _ => attends_throw h
  | bound + 1, f, g, j, x, y, h, hfg => by
      rw [Search.climb, Search.climb]
      refine (attends_change h { h.search with stats := by simp only [h.search.stats] }).bind
        fun _ _ x₁ y₁ hx₁ _ => ?_
      refine (attends_negate hx₁.alongside (hx₁.twin hfg)).bind fun n n' x₂ y₂ hx₂ hn => ?_
      refine (attends_bump hx₂.alongside hn).bind fun _ _ x₃ y₃ hx₃ _ => attends_state ?_
      have hx := (hx₁.trans hx₂).trans hx₃
      have h₃ := hx₃.alongside
      have horigin := h₃.search.lineage.origins.get? h₃.matching (hx.twin hfg)
      change Option.Rel _ (x₃.1.lineage.origin? f) (y₃.1.lineage.origin? g) at horigin
      revert horigin
      generalize x₃.1.lineage.origin? f = o
      generalize y₃.1.lineage.origin? g = o'
      rintro (⟨ho⟩ | _)
      · rename_i o o'
        simp only [ho.depth]
        refine (attends_checkedAdd h₃ j o'.depth).bind fun m _ x₄ y₄ hx₄ hm => ?_
        obtain rfl : m = _ := hm
        have h₄ := hx₄.alongside
        have hparent := hx₄.twin ho.parent
        rw [h₃.search.lineage.isInvalid_eq h₃.matching ho.parent]
        cases y₃.1.lineage.isInvalid o'.parent with
        | true => exact attends_pure h₄ rfl
        | false =>
            refine (attends_assertFalseAt h₄ hparent m).bind fun _ _ x₅ y₅ hx₅ _ => ?_
            refine (attends_act hx₅.alongside (mirrors_check hx₅.alongside.session)).bind
              fun verdict _ x₆ y₆ hx₆ hverdict => ?_
            obtain rfl : verdict = _ := hverdict
            have hparent₆ := (hx₅.trans hx₆).twin hparent
            by_cases hsat : verdict = .sat
            · rw [if_pos hsat, if_pos hsat]
              refine (attends_markInvalid hx₆.alongside hparent₆ m).bind fun _ _ x₇ y₇ hx₇ _ => ?_
              refine (attends_recordModel hx₇.alongside).bind fun _ _ x₈ y₈ hx₈ _ => ?_
              refine (attends_report hx₈.alongside).bind fun _ _ x₉ y₉ hx₉ _ => ?_
              exact attends_climb hx₉.alongside (((hx₇.trans hx₈).trans hx₉).twin hparent₆)
            · rw [if_neg hsat, if_neg hsat]
              exact attends_report hx₆.alongside
      · rw [h₃.search.lineage.isProperty_eq h₃.matching (hx.twin hfg)]
        cases y₃.1.lineage.isProperty g with
        | true => exact attends_ask (attends_report h₃)
        | false => exact attends_pure h₃ rfl

theorem attends_lastFrame (h : Alongside k x y) {trace trace' : List Formula}
    (htrace : trace.length = trace'.length) :
    Attends k Same (Search.lastFrame (backend M) trace) (Search.lastFrame (backend M) trace')
      x y := by
  rw [Search.lastFrame, Search.lastFrame, htrace]
  refine attends_state ?_
  rw [h.search.depth]
  exact attends_checkedAdd h _ _

theorem attends_extendInScope (h : Alongside (k + 1) x y) (hfg : Twin x.2.terms y.2.terms f g)
    {trace trace' : List Formula}
    (htrace : List.Forall₂ (Twin x.2.terms y.2.terms) trace trace') :
    Attends (k + 1) Same (Search.extendInScope (backend M) config f trace)
      (Search.extendInScope (backend M) config g trace') x y := by
  rw [Search.extendInScope, Search.extendInScope]
  refine (attends_assertTrace h htrace).bind fun _ _ x₁ y₁ hx₁ _ => ?_
  refine (attends_lastFrame hx₁.alongside htrace.length_eq).bind fun j _ x₂ y₂ hx₂ hj => ?_
  obtain rfl : j = _ := hj
  have hfg₂ := (hx₁.trans hx₂).twin hfg
  refine (attends_assertFalseAt hx₂.alongside hfg₂ j).bind fun _ _ x₃ y₃ hx₃ _ => ?_
  refine (attends_act hx₃.alongside (mirrors_check hx₃.alongside.session)).bind
    fun verdict _ x₄ y₄ hx₄ hverdict => ?_
  obtain rfl : verdict = _ := hverdict
  refine attends_unless id id ?_
  refine (attends_recordModel hx₄.alongside).bind fun _ _ x₅ y₅ hx₅ _ => ?_
  have h₅ := hx₅.alongside
  cases config.extend with
  | false => exact attends_pure h₅ rfl
  | true =>
      refine attends_state ?_
      rw [h₅.search.lineage.size_eq]
      exact attends_climb h₅ (((hx₃.trans hx₄).trans hx₅).twin hfg₂)

/-- A scope of its own for an effect: it is closed again also after an error. -/
theorem attends_scoped {act act' : SearchM Session Unit} (h : Alongside k x y)
    (hact : ∀ x' y', Further (k + 1) x y x' y' → Attends (k + 1) Same act act' x' y') :
    Attends k Same
      (do
        Search.update (backend M).solver.push
        let result ← Action.attempt act
        Search.step (backend M).solver.pop
        Action.ofAttempt result)
      (do
        Search.update (backend M).solver.push
        let result ← Action.attempt act'
        Search.step (backend M).solver.pop
        Action.ofAttempt result) x y := by
  have hpush : Further (k + 1) x y (x.1, (backend M).solver.push x.2)
      (y.1, (backend M).solver.push y.2) := by
    refine ⟨⟨h.search, { h.session with paths := ?_ }⟩, .refl _, .refl _⟩
    exact { h.session.paths with
      opened := .cons .nil h.session.paths.opened
      scopes := congrArg (· + 1) h.session.paths.scopes }
  have hpop : ∀ x' y', Alongside (k + 1) x' y' → ∃ p p',
      Search.step (backend M).solver.pop x' = .ok () (x'.1, { x'.2 with paths := p }) ∧
      Search.step (backend M).solver.pop y' = .ok () (y'.1, { y'.2 with paths := p' }) ∧
      Further k x' y' (x'.1, { x'.2 with paths := p }) (y'.1, { y'.2 with paths := p' }) := by
    intro x' y' h'
    obtain ⟨hbase, hbase', hopened, hscopes, hdepth, _⟩ := h'.session.paths
    have hrun : ∀ {z : Search × Session} {scope : List Formula} {rest : List (List Formula)},
        z.2.paths.opened = scope :: rest → Search.step (backend M).solver.pop z =
          .ok () (z.1, { z.2 with paths := { z.2.paths with opened := rest, model := none } }) :=
      fun {z scope rest} hz => by
        have hpaths : z.2.paths.pop = .ok { z.2.paths with opened := rest, model := none } := by
          rw [PathSolver.pop, hz]
        simp only [Search.step, Search.act, Action.within, Action.ofStep, backend, solver, hpaths]
    cases hleft : x'.2.paths.opened with
    | nil =>
        rw [hleft] at hscopes
        cases hscopes
    | cons scope rest =>
        rw [hleft] at hopened hscopes
        generalize hright : y'.2.paths.opened = opened' at hopened
        cases hopened with
        | cons _ hrest =>
            refine ⟨_, _, hrun hleft, hrun hright,
              ⟨h'.search, { h'.session with paths := ?_ }⟩, .refl _, .refl _⟩
            exact ⟨hbase, hbase', hrest, Nat.succ.inj hscopes, hdepth, rfl⟩
  refine Action.Tracks.bind (Search.tracks_update ?_)
  refine Action.Tracks.bind (((hact _ _ hpush).attempt fun fault x' y' hne hparted => ?_).imp
    fun r r' x₁ y₁ hr => ?_)
  · obtain ⟨j, _, h'⟩ := hparted
    exact ⟨j, fun e he => absurd he (hne e), h'⟩
  · rcases hr with ⟨_, _, rfl, rfl, hx₁, _⟩ | ⟨e, rfl, rfl, j, hj, h₁⟩
    · obtain ⟨p, p', hrun, hrun', hx₂⟩ := hpop x₁ y₁ hx₁.alongside
      refine Action.Tracks.bind (Action.tracks_of_ok hrun hrun' (Action.tracks_pure ⟨?_, rfl⟩))
      exact ⟨hx₂.alongside, hx₁.left.trans hx₂.left, hx₁.right.trans hx₂.right⟩
    · obtain rfl := hj e rfl
      obtain ⟨p, p', hrun, hrun', hx₂⟩ := hpop x₁ y₁ h₁
      refine Action.Tracks.bind (Action.tracks_of_ok hrun hrun' ?_)
      exact Action.tracks_fail (hx₂.alongside.parted _)

theorem Alongside.isEmpty_cex (h : Alongside k x y) :
    x.2.reach.cex.isEmpty = y.2.reach.cex.isEmpty := by
  rw [Bool.eq_iff_iff, List.isEmpty_iff_length_eq_zero, List.isEmpty_iff_length_eq_zero,
    h.session.reach.cex.length_eq]

theorem attends_extendFailure (h : Alongside k x y) (hfg : Twin x.2.terms y.2.terms f g) :
    Attends k Same (Search.extendFailure (backend M) config f)
      (Search.extendFailure (backend M) config g) x y := by
  have hcex := h.session.reach.cex
  rw [Search.extendFailure, Search.extendFailure]
  refine attends_ask (attends_when id (fun hempty => h.isEmpty_cex.trans hempty) (attends_state ?_))
  refine (attends_lastFrame h hcex.length_eq).bind fun j _ x₁ y₁ hx₁ hj => ?_
  obtain rfl : j = _ := hj
  refine attends_unless id (fun hlt => by rwa [← h.search.index]) ?_
  rw [h.search.index]
  refine (attends_checkedAdd hx₁.alongside y.1.index 1).bind fun depth _ x₂ y₂ hx₂ hdepth => ?_
  obtain rfl : depth = _ := hdepth
  refine (attends_ensureDepth hx₂.alongside depth).bind fun _ _ x₃ y₃ hx₃ _ => ?_
  have hx := (hx₁.trans hx₂).trans hx₃
  refine attends_scoped hx₃.alongside fun x₄ y₄ hx₄ => ?_
  exact attends_extendInScope hx₄.alongside ((hx.twin hfg).extend hx₄.left hx₄.right)
    (hcex.imp fun _ _ ht => (hx.twin ht).extend hx₄.left hx₄.right)

theorem attends_failInduction (h : Alongside k x y) (hfg : Twin x.2.terms y.2.terms f g) :
    Attends k Same (Search.failInduction (backend M) config f)
      (Search.failInduction (backend M) config g) x y := by
  have hcex := h.session.reach.cex
  rw [Search.failInduction, Search.failInduction]
  refine attends_ask (attends_when id (fun hempty => h.isEmpty_cex.trans hempty) ?_)
  refine (attends_lastFrame h hcex.length_eq).bind fun j _ x₁ y₁ hx₁ hj => ?_
  obtain rfl : j = _ := hj
  refine (attends_report hx₁.alongside).bind fun _ _ x₂ y₂ hx₂ _ => ?_
  have hfg₂ := (hx₁.trans hx₂).twin hfg
  refine (attends_markInvalid hx₂.alongside hfg₂ j).bind fun _ _ x₃ y₃ hx₃ _ => ?_
  have h₃ := hx₃.alongside
  refine (attends_change h₃ { h₃.search with
    lineage := h₃.search.lineage.markPropertyInvalid }).bind fun _ _ x₄ y₄ hx₄ _ => ?_
  exact attends_extendFailure hx₄.alongside ((hx₃.trans hx₄).twin hfg₂)

end Invariance.FiniteState
