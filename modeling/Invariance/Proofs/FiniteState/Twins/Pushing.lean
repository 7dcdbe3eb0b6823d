import Invariance.Proofs.FiniteState.Twins.Extensions
import Invariance.Search.Round

/-!
Pushing obligations side by side: both searches get the same answers to their induction checks, so
they stage, weaken and learn the same, up to twins, and drain their agendas in the same order.
-/

namespace Invariance.FiniteState

open Universe Session

variable {M : Machine} {config : Config} {k : Nat} {x y : Search × Session} {f g r r' : Formula}
  {a b : Obligation}

theorem attends_carry (h : Alongside k x y) (hab : a.Alike (Twin x.2.terms y.2.terms) b)
    (hfg : Twin x.2.terms y.2.terms f g) :
    Attends k Same (Search.carry (backend M) a f) (Search.carry (backend M) b g) x y := by
  have hob : ({ a with forward := f, score := .zero } : Obligation).Alike
      (Twin x.2.terms y.2.terms) { b with forward := g, score := .zero } :=
    ⟨hfg, hab.counter, hab.depth, rfl⟩
  rw [Search.carry, Search.carry]
  refine (attends_change h { h.search with
    staged := List.rel_append h.search.staged (.cons hob .nil) }).bind fun _ _ x₁ y₁ hx₁ _ => ?_
  refine (attends_act hx₁.alongside
    (mirrors_register hx₁.alongside.session (hx₁.twin hfg) .first)).bind fun _ _ x₂ y₂ hx₂ _ => ?_
  refine (attends_act hx₂.alongside (mirrors_register hx₂.alongside.session
    ((hx₁.trans hx₂).twin hfg) .intermediate)).bind fun _ _ x₃ y₃ hx₃ _ => ?_
  have h₃ := hx₃.alongside
  refine (attends_change h₃ { h₃.search with
    stats := by simp only [h₃.search.stats, h₃.search.staged.length_eq] }).bind
      fun _ _ x₄ y₄ hx₄ _ => attends_pure hx₄.alongside rfl

theorem attends_weaken (h : Alongside k x y) (hab : a.Alike (Twin x.2.terms y.2.terms) b)
    (hr : Twin x.2.terms y.2.terms r r') :
    Attends k Twins (Search.weaken (backend M) a r) (Search.weaken (backend M) b r') x y := by
  rw [Search.weaken, Search.weaken]
  refine Attends.bind (V := Twins) (Action.tracks_pure ⟨h.further, hr⟩) fun i i' x₁ y₁ hx₁ hi => ?_
  have h₁ := hx₁.alongside
  have hab₁ := hx₁.obligation hab
  refine (attends_change h₁ { h₁.search with
    frame := h₁.search.frame.erase h₁.matching hab₁.forward }).bind fun _ _ x₂ y₂ hx₂ _ => ?_
  have h₂ := hx₂.alongside
  have hmade := h₂.session.matched.echoes_disjoin (hx₂.twin hab₁.forward) (hx₂.twin hi)
  refine (attends_act h₂ (mirrors_making (·.disjoin a.forward i) (·.disjoin b.forward i')
    h₂.session hmade)).bind fun d d' x₃ y₃ hx₃ hd => ?_
  have h₃ := hx₃.alongside
  refine (attends_change h₃ { h₃.search with
    frame := h₃.search.frame.insert h₃.matching hd }).bind fun _ _ x₄ y₄ hx₄ _ => ?_
  refine (attends_countFrame hx₄.alongside).bind fun _ _ x₅ y₅ hx₅ _ => ?_
  refine (attends_checkRefutations hx₅.alongside).bind fun _ _ x₆ y₆ hx₆ _ => ?_
  refine (attends_report hx₆.alongside).bind fun _ _ x₇ y₇ hx₇ _ => ?_
  exact attends_pure hx₇.alongside ((((hx₄.trans hx₅).trans hx₆).trans hx₇).twin hd)

theorem attends_stage (h : Alongside k x y) (hab : a.Alike (Twin x.2.terms y.2.terms) b)
    (hr : Twin x.2.terms y.2.terms r r') :
    Attends k Same (Search.stage (backend M) a r) (Search.stage (backend M) b r') x y := by
  rw [Search.stage, Search.stage]
  refine (attends_report h).bind fun _ _ x₁ y₁ hx₁ _ => ?_
  refine (attends_act hx₁.alongside (mirrors_checkInductive hx₁.alongside.session
    (hx₁.twin hab.forward))).bind fun answer answer' x₂ y₂ hx₂ hanswer => ?_
  have hx := hx₁.trans hx₂
  have hab₂ := hx.obligation hab
  rcases hanswer with ⟨rfl, rfl⟩ | ⟨c, c', path, _, rfl, rfl⟩
  · exact attends_carry hx₂.alongside hab₂ hab₂.forward
  · refine (attends_weaken hx₂.alongside hab₂ (hx.twin hr)).bind fun d d' x₃ y₃ hx₃ hd => ?_
    exact attends_carry hx₃.alongside (hx₃.obligation hab₂) hd

theorem attends_refine (h : Alongside k x y) (hab : a.Alike (Twin x.2.terms y.2.terms) b)
    (hr : Twin x.2.terms y.2.terms r r') (hfg : Twin x.2.terms y.2.terms f g) :
    Attends k Same (Search.refine (backend M) a r f) (Search.refine (backend M) b r' g) x y := by
  rw [Search.refine, Search.refine]
  refine (attends_negate h hfg).bind fun n n' x₁ y₁ hx₁ hn => ?_
  refine (attends_report hx₁.alongside).bind fun _ _ x₂ y₂ hx₂ _ => ?_
  have h₂ := hx₂.alongside
  refine attends_state ?_
  rw [h₂.search.index]
  refine (attends_act h₂ (mirrors_learnForward h₂.session ((hx₁.trans hx₂).twin hfg) _)).bind
    fun l l' x₃ y₃ hx₃ hl => ?_
  refine (attends_report hx₃.alongside).bind fun _ _ x₄ y₄ hx₄ _ => ?_
  have hx₂₄ := hx₂.trans (hx₃.trans hx₄)
  refine (attends_addToFrame hx₄.alongside (hx₂₄.twin hn) .first).bind fun _ _ x₅ y₅ hx₅ _ => ?_
  have h₅ := hx₅.alongside
  have hl₅ := (hx₄.trans hx₅).twin hl
  refine (attends_change h₅ { h₅.search with
    frame := h₅.search.frame.insert h₅.matching hl₅ }).bind fun _ _ x₆ y₆ hx₆ _ => ?_
  refine (attends_countFrame hx₆.alongside).bind fun _ _ x₇ y₇ hx₇ _ => ?_
  have h₇ := hx₇.alongside
  have hx₁₇ := hx₂₄.trans (hx₅.trans (hx₆.trans hx₇))
  have hx := hx₁.trans hx₁₇
  have horigin : (⟨r, f, x₇.1.depth⟩ : Origin).Alike (Twin x₇.2.terms y₇.2.terms)
      ⟨r', g, y₇.1.depth⟩ := ⟨hx.twin hr, hx.twin hfg, h₇.search.depth⟩
  refine attends_state ((attends_change h₇ { h₇.search with
    lineage := h₇.search.lineage.addOrigin h₇.matching (hx₁₇.twin hn) horigin }).bind
      fun _ _ x₈ y₈ hx₈ _ => ?_)
  rw [h₇.search.depth, hab.depth]
  refine (attends_checkedAdd hx₈.alongside _ _).bind fun depth _ x₉ y₉ hx₉ hdepth => ?_
  obtain rfl : depth = _ := hdepth
  refine (attends_report hx₉.alongside).bind fun _ _ x₁₀ y₁₀ hx₁₀ _ => ?_
  have hlast := hx₈.trans (hx₉.trans hx₁₀)
  have hob : (⟨l, f, depth, .zero⟩ : Obligation).Alike (Twin x₁₀.2.terms y₁₀.2.terms)
      ⟨l', g, depth, .zero⟩ :=
    ⟨(hx₆.trans (hx₇.trans hlast)).twin hl₅, (hx.trans hlast).twin hfg, rfl, rfl⟩
  exact (attends_enqueue hx₁₀.alongside hob).bind fun _ _ x' y' hx' _ =>
    attends_pure hx'.alongside rfl

theorem attends_answerCounter (h : Alongside k x y)
    (hab : a.Alike (Twin x.2.terms y.2.terms) b) (hr : Twin x.2.terms y.2.terms r r')
    (hfg : Twin x.2.terms y.2.terms f g) (model : List Nat) :
    Attends k Same (Search.answerCounter (backend M) config a r f model)
      (Search.answerCounter (backend M) config b r' g model) x y := by
  rw [Search.answerCounter, Search.answerCounter]
  refine (attends_report h).bind fun _ _ x₁ y₁ hx₁ _ => ?_
  have h₁ := hx₁.alongside
  refine attends_state ?_
  rw [h₁.search.index, h₁.search.depth]
  refine attends_ofExcept h₁ (fun window hwindow => ⟨window, hwindow, ?_⟩) fun _ hv _ => hv
  obtain ⟨first, last⟩ := window
  refine (attends_act h₁ (mirrors_checkReachable h₁.session (hx₁.twin hfg) first last)).bind
    fun reachable _ x₂ y₂ hx₂ hreachable => ?_
  obtain rfl : reachable = _ := hreachable
  refine (attends_report hx₂.alongside).bind fun _ _ x₃ y₃ hx₃ _ => ?_
  have hx := hx₁.trans (hx₂.trans hx₃)
  cases reachable with
  | true =>
      exact (attends_failInduction hx₃.alongside (hx.twin hr)).bind fun _ _ x₄ y₄ hx₄ _ =>
        attends_pure hx₄.alongside rfl
  | false => exact attends_refine hx₃.alongside (hx.obligation hab) (hx.twin hr) (hx.twin hfg)

theorem attends_push (h : Alongside k x y) (hab : a.Alike (Twin x.2.terms y.2.terms) b) :
    Attends k Same (Search.push (backend M) config a) (Search.push (backend M) config b) x y := by
  rw [Search.push, Search.push]
  refine (attends_report h).bind fun _ _ x₁ y₁ hx₁ _ => ?_
  refine (attends_negate hx₁.alongside (hx₁.twin hab.counter)).bind fun n n' x₂ y₂ hx₂ hn => ?_
  refine (attends_act hx₂.alongside (mirrors_checkInductive hx₂.alongside.session hn)).bind
    fun answer answer' x₃ y₃ hx₃ hanswer => ?_
  have hab₃ := (hx₁.trans (hx₂.trans hx₃)).obligation hab
  have hn₃ := hx₃.twin hn
  rcases hanswer with ⟨rfl, rfl⟩ | ⟨c, c', path, hc, rfl, rfl⟩
  · exact attends_stage hx₃.alongside hab₃ hn₃
  · exact attends_answerCounter hx₃.alongside hab₃ hn₃ hc path

theorem attends_drain : ∀ {fuel : Nat} {x y : Search × Session}, Alongside k x y →
    Attends k Same (Search.drain (backend M) config fuel) (Search.drain (backend M) config fuel) x y
  | 0, _, _, h => attends_throw h
  | fuel + 1, x, y, h => by
      rw [Search.drain]
      refine attends_state ?_
      rw [← h.search.agenda.isEmpty_eq, ← h.search.lineage.propertyInvalid]
      cases hempty : x.1.agenda.isEmpty with
      | true => exact attends_pure h rfl
      | false =>
          cases x.1.lineage.propertyInvalid with
          | true => exact attends_pure h rfl
          | false =>
              refine (attends_pop h hempty).bind fun a b x₁ y₁ hx₁ hab => ?_
              refine (attends_push hx₁.alongside hab).bind fun pushed _ x₂ y₂ hx₂ hpushed => ?_
              obtain rfl : pushed = _ := hpushed
              by_cases hrefined : pushed = .refined
              · rw [if_pos hrefined, if_pos hrefined]
                exact (attends_enqueue hx₂.alongside (hx₂.obligation hab)).bind
                  fun _ _ x₃ y₃ hx₃ _ => attends_drain hx₃.alongside
              · rw [if_neg hrefined, if_neg hrefined]
                exact attends_drain hx₂.alongside

theorem attends_drainFrame {fuel : Nat} (h : Alongside k x y) :
    Attends k Same (Search.drainFrame (backend M) config fuel)
      (Search.drainFrame (backend M) config fuel) x y := by
  rw [Search.drainFrame]
  refine (attends_drain h).bind fun rest _ x₁ y₁ hx₁ hrest => ?_
  have h₁ := hx₁.alongside
  cases config.saveGraphs with
  | false => exact attends_pure h₁ hrest
  | true =>
      refine Attends.bind (V := Same) ?_ fun _ _ x₂ y₂ hx₂ _ => attends_pure hx₂.alongside hrest
      rw [Search.saveGraph]
      refine attends_state ?_
      rw [h₁.search.index]
      exact (attends_act h₁ (mirrors_saveGraph h₁.session)).bind fun _ _ x₂ y₂ hx₂ _ =>
        attends_report hx₂.alongside

end Invariance.FiniteState
