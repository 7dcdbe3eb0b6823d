import Invariance.Proofs.Transcripts.Erasing
import Invariance.Proofs.Transcripts.Pushing
import Invariance.Proofs.Transcripts.Stillness

/-!
The windows in every state that a query passes through. In a round nothing that they depend on is
changed; between two rounds there is no reachability check.
-/

namespace Invariance

variable {σ μ : Type} {n : Note μ} {ℓ : List (Note μ)} {t t' t'' : Search × σ × List (Note μ)}
  {r : Nat}

structure Steady (t t' : Search × σ × List (Note μ)) : Prop where
  rounds : t'.1.stats.rounds = t.1.stats.rounds
  round : ∀ {r}, InRound r t → Clear t → InRound r t' ∧ Clear t'

theorem Steady.trans (h : Steady t t') (h' : Steady t' t'') : Steady t t'' where
  rounds := h'.rounds.trans h.rounds
  round hr hclear := h'.round (h.round hr hclear).1 (h.round hr hclear).2

theorem Still.steady (h : Still t t') : Steady t t' where
  rounds := h.rounds
  round hr hclear := by
    obtain ⟨hresets, hreset, hclear'⟩ := h.rest hclear
    refine ⟨⟨h.index.trans hr.index, ?_, hresets.trans hr.resets, ?_⟩, hclear'⟩
    · rw [h.depth]
      exact hr.depth
    · rw [hreset, h.depth]
      exact hr.reset

theorem steady_searched {s : Search} {w w' : σ} {counter : Formula}
    {answer : Except Fault Bool} {trace : List Formula} :
    Steady (s, w, ℓ)
      (s, w', .searched (s.index + 1 - s.depth) s.index counter answer trace :: ℓ) where
  rounds := rfl
  round := fun {r} hr hclear => by
    have hindex : s.index = (tile r).2 := hr.index
    have hdepth : (tile r).1 + s.depth = (tile r).2 + 1 := hr.depth
    have hW : (s.index + 1 - s.depth, s.index) = tile r := by
      rw [hindex, ← hdepth, Nat.add_sub_cancel]
    refine ⟨⟨hr.index, hr.depth, hr.resets, hr.reset⟩, hclear.tiled.cons fun W hW' => ?_,
      hclear.current.cons rfl fun W hW' => ?_⟩
    · obtain rfl := Option.mem_some.mp hW'
      exact ⟨r, s.depth, hr.resets, hW, hr.reset, by
        rw [hW]
        exact hr.depth⟩
    · obtain rfl := Option.mem_some.mp hW'
      rfl

/-- After round `r`, when the induction solver is reset and the frame is built anew. -/
structure Between (r : Nat) (t : Search × σ × List (Note μ)) : Prop where
  index : t.1.index = (tile r).2
  depth : t.1.depth = (tile r).2 + 1
  resets : resets t.2.2 = r + 2
  reset : lastReset? t.2.2 = some t.1.depth
  tiled : Tiled t.2.2
  unchecked : ∀ s, Current s t.2.2

namespace Between

theorem clear (h : Between r t) : Clear t := ⟨h.tiled, h.unchecked t.1⟩

theorem still (h : Between r t) (hstill : Still t t') : Between r t' := by
  obtain ⟨hresets, hreset, hclear⟩ := hstill.rest h.clear
  refine ⟨hstill.index.trans h.index, hstill.depth.trans h.depth, hresets.trans h.resets, ?_,
    hclear.tiled, fun s => ?_⟩
  · rw [hreset, hstill.depth]
    exact h.reset
  · obtain ⟨new, hnew, hquiet⟩ := hstill.notes
    rw [hnew]
    exact (rest_append hquiet h.tiled (h.unchecked s)).2.2.2

theorem next {s s' : Search} {w : σ} (h : Between r (s, w, ℓ))
    (hindex : s'.index = s.index + s.depth) (hdepth : s'.depth = s.depth) :
    InRound (r + 1) (s', w, ℓ) ∧ Clear (s', w, ℓ) := by
  have hi : s.index = (tile r).2 := h.index
  have hd : s.depth = (tile r).2 + 1 := h.depth
  refine ⟨⟨?_, ?_, h.resets, ?_⟩, h.tiled, h.unchecked s'⟩
  · change s'.index = 2 * (tile r).2 + 1
    omega
  · change (tile r).2 + 1 + s'.depth = 2 * (tile r).2 + 1 + 1
    omega
  · change lastReset? ℓ = some s'.depth
    rw [hdepth]
    exact h.reset

end Between

/-- Before the induction solver is reset for the first time. -/
structure Early (ℓ : List (Note μ)) : Prop where
  resets : resets ℓ = 0
  tiled : Tiled ℓ
  unchecked : ∀ s, Current s ℓ

namespace Early

theorem note (h : Early ℓ) (hn : n.Quiet) : Early (n :: ℓ) := by
  have hquiet : ∀ m ∈ [n], m.Quiet := fun _ hm => List.mem_singleton.mp hm ▸ hn
  have hrest : ∀ s, _ := fun s => rest_append hquiet h.tiled (h.unchecked s)
  exact ⟨(hrest {}).1.trans h.resets, (hrest {}).2.2.1, fun s => (hrest s).2.2.2⟩

theorem clear {s : Search} {w : σ} (h : Early ℓ) : Clear (s, w, ℓ) := ⟨h.tiled, h.unchecked s⟩

theorem clear_reset {s : Search} {w : σ} {depth : Nat} {answer : Except Fault Unit}
    (h : Early ℓ) : Clear (s, w, .reset depth answer :: ℓ) :=
  ⟨h.tiled.cons fun W hW => (by cases hW), current_reset⟩

theorem first {s : Search} {w : σ} {answer : Except Fault Unit} (h : Early ℓ)
    (hindex : s.index = 0) (hdepth : s.depth = 1) : InRound 0 (s, w, .reset 1 answer :: ℓ) where
  index := hindex
  depth := congrArg (0 + ·) hdepth
  resets := (List.countP_cons_of_pos rfl).trans (congrArg (· + 1) h.resets)
  reset := congrArg some hdepth.symm

end Early

theorem early_loaded {fault : Option Fault} : Early (μ := μ) [.other fault] where
  resets := rfl
  tiled n ℓ' hs W hW := by
    rcases List.suffix_cons_iff.mp hs with heq | hs
    · obtain ⟨rfl, rfl⟩ := List.cons.inj heq
      cases hW
    · cases List.suffix_nil.mp hs
  unchecked s n hn W hW := by
    obtain rfl := List.mem_singleton.mp hn
    cases hW

namespace Search

open Course

variable {S α β : Type} {B : Backend S σ μ} {config : Config} {f : Formula} {ob : Obligation}
  {act : SearchM (σ × List (Note μ)) α} {next : α → SearchM (σ × List (Note μ)) β}
  {I : Search × σ × List (Note μ) → Prop} {s : Search} {w : σ}

theorem Calm.steady {c : Course act} (h : Calm c) : c.Stays Steady :=
  fun t t' ht => (h t t' ht).steady

theorem Calm.skip {c : Course act} {d : ∀ a, Course (next a)}
    {Q : β → Search × σ × List (Note μ) → Prop} (h : Calm c) (ht : Still t t')
    (hI : ∀ t', Still t t' → I t') (hrest : ∀ a t', Still t t' → (d a).Keeps I t' Q) :
    (c.bind d).Keeps I t' Q :=
  .bind ((h.keeps (I := I) (s := t') fun _ h' => hI _ (ht.trans h')).imp fun a t'' _ h' =>
    hrest a t'' (ht.trans h'))

theorem keeps_act {note : Except Fault α → σ → Note μ} {action : Action σ α}
    {Q : α → Search × σ × List (Note μ) → Prop}
    (hI : ∀ answer w', I (s, w', note answer w' :: ℓ))
    (hQ : ∀ a w', Q a (s, w', note (.ok a) w' :: ℓ)) :
    (move (Search.act (noting id note action))).Keeps I (s, w, ℓ) Q := by
  refine keeps_move (E := fun _ => True) ?_ ?_
  · obtain ⟨answer, w', heq⟩ := final_noting note action w ℓ
    rw [Search.act, Action.final_within, heq]
    exact hI answer w'
  · rw [Action.Ends, Search.act, Action.within, noting]
    cases action w with
    | ok a w' => exact hQ a w'
    | error _ _ => trivial

theorem keeps_ofExcept {x : Except Violation α} {Q : α → Search × σ × List (Note μ) → Prop}
    (hI : I t) (h : ∀ a, x = .ok a → Q a t) :
    (move (Action.ofExcept x : SearchM (σ × List (Note μ)) α)).Keeps I t Q := by
  cases x with
  | ok a => exact keeps_ok rfl hI (h a rfl)
  | error v => exact keeps_error rfl hI

theorem add_eq_ok {M : Machine} {a b n : Nat} (h : M.add a b = .ok n) : n = a + b := by
  rw [Machine.add] at h
  split at h
  · exact (Except.ok.inj h).symm
  · cases h

theorem window_eq_ok {M : Machine} {index depth : Nat} {W : Nat × Nat}
    (h : window M index depth = .ok W) : W = (index + 1 - depth, index) := by
  rw [window_eq] at h
  split at h
  · exact (Except.ok.inj h).symm
  · cases h

theorem keeps_report {level : Level} {message : String}
    {fields : Search → (Formula → String) → List (String × Field)}
    {Q : Unit → Search × σ × List (Note μ) → Prop} (hI : ∀ w', I (s, w', ℓ))
    (hQ : ∀ w', Q () (s, w', ℓ)) :
    (move (report B.noted level message fields)).Keeps I (s, w, ℓ) Q :=
  keeps_ok rfl (hI _) (hQ _)

theorem steady_answerCounter {counter : Formula} {model : μ} :
    (answerCounterCourse B.noted config ob f counter model).Stays Steady := by
  refine .of_keeps fun (s, w, ℓ) => ?_
  have hreport : ∀ w', Steady (s, w, ℓ) (s, w', ℓ) := fun _ =>
    Still.steady ⟨rfl, rfl, rfl, .refl ℓ⟩
  refine .bind (keeps_report hreport fun w₁ => .bind (keeps_ok rfl (hreport w₁)
    (.bind (keeps_ofExcept (hreport w₁) fun W hW => ?_))))
  obtain rfl : W = (s.index + 1 - s.depth, s.index) := window_eq_ok hW
  refine .bind (keeps_act (fun _ _ => steady_searched) fun reachable w₂ => ?_)
  have hsearched : Steady (s, w, ℓ) (s, w₂, .searched (s.index + 1 - s.depth) s.index counter
      (.ok reachable) (B.reachability.counterTrace w₂) :: ℓ) := steady_searched
  have hreported : ∀ w₃, Steady (s, w, ℓ) (s, w₃, _) := fun _ =>
    hsearched.trans (Still.steady ⟨rfl, rfl, rfl, .refl _⟩)
  refine .bind (keeps_report hreported fun w₃ => keeps_branch (fun _ => ?_) fun _ => ?_)
  · refine Keeps.imp (Stays.keeps (calm_failInduction.bind fun _ => calm_pure).steady
      fun _ h => (hreported w₃).trans h) fun _ _ _ _ => trivial
  · exact Keeps.imp (Stays.keeps calm_refine.steady fun _ h => (hreported w₃).trans h)
      fun _ _ _ _ => trivial

theorem steady_bind {c : Course act} {d : ∀ a, Course (next a)} (h : c.Stays Steady)
    (hd : ∀ a, (d a).Stays Steady) : (c.bind d).Stays Steady :=
  Stays.bind (R := Steady) (fun h h' => h.trans h') h hd

theorem steady_push : (pushCourse B.noted config ob).Stays Steady :=
  steady_bind calm_report.steady fun _ => steady_bind calm_negate.steady fun _ =>
    steady_bind (calm_act fun _ _ => ⟨rfl, rfl⟩).steady fun
      | .unsat => (calm_stage ob).steady
      | .unknown => calm_throw.steady
      | .sat none _ => calm_throw.steady
      | .sat (some _) none => calm_throw.steady
      | .sat (some _) (some _) => steady_answerCounter

theorem steady_drain : ∀ fuel, (drainCourse B.noted config fuel).Stays Steady
  | 0 => calm_throw.steady
  | fuel + 1 => steady_bind calm_state.steady fun _ => stays_branch calm_pure.steady
      (steady_bind calm_pop.steady fun ob => steady_bind steady_push fun _ =>
        stays_branch (steady_bind (calm_enqueue ob).steady fun _ => steady_drain fuel)
          (steady_drain fuel))

theorem steady_drainFrame (fuel : Nat) : (drainFrameCourse B.noted config fuel).Stays Steady :=
  steady_bind (steady_drain fuel) fun _ => stays_branch
    (steady_bind calm_saveGraph.steady fun _ => calm_pure.steady) calm_pure.steady

/-! From one round to the next. -/

theorem keeps_clearFrame {depth : Nat}
    (hsame : ∀ s', s'.index = s.index → s'.depth = s.depth →
      s'.stats.rounds = s.stats.rounds → I (s', w, ℓ))
    (hreset : ∀ s' w' answer, s'.index = s.index → s'.depth = s.depth →
      s'.stats.rounds = s.stats.rounds → I (s', w', .reset depth answer :: ℓ)) :
    (clearFrameCourse B.noted depth).Keeps I (s, w, ℓ) fun _ t' => t'.1.index = s.index ∧
      t'.1.depth = s.depth ∧ t'.1.stats.rounds = s.stats.rounds ∧
      t'.2.2 = .reset depth (.ok ()) :: ℓ := by
  refine .bind (keeps_within (.bind (keeps_ok rfl (hsame _ rfl rfl rfl) (keeps_within ?_))))
  refine keeps_move (E := fun _ => True) ?_ ?_
  · obtain ⟨answer, w', heq⟩ := final_noting (fun answer _ => .reset depth answer)
      (B.oracle.reset depth) w ℓ
    change I (_, Action.final (noting id _ _) (w, ℓ))
    rw [heq]
    exact hreset _ w' answer rfl rfl rfl
  · change Action.Ends (noting id (fun answer _ => .reset depth answer) (B.oracle.reset depth))
      (w, ℓ) _ _
    rw [Action.Ends, noting]
    cases B.oracle.reset depth w with
    | ok a w' => exact keeps_ok rfl (hreset _ w' (.ok ()) rfl rfl rfl) ⟨rfl, rfl, rfl, rfl⟩
    | error _ _ => trivial

structure Ended (rounds : Nat) (t : Search × σ × List (Note μ)) : Prop where
  clear : Clear t
  rounds : t.1.stats.rounds = rounds

theorem keeps_deepen (h : InRound r (s, w, ℓ)) (hclear : Clear (s, w, ℓ)) :
    (deepenCourse B.noted).Keeps (Ended s.stats.rounds) (s, w, ℓ) fun _ t' =>
      Between r t' ∧ t'.1.stats.rounds = s.stats.rounds := by
  have hsame : ∀ s', s'.index = s.index → s'.stats.rounds = s.stats.rounds →
      Ended s.stats.rounds (s', w, ℓ) := fun s' hindex hrounds =>
    ⟨hclear.congr hindex, hrounds⟩
  have hreset : ∀ d answer, Tiled (.reset d answer :: ℓ) := fun _ _ =>
    hclear.tiled.cons fun W hW => by cases hW
  refine .bind (keeps_ok rfl (hsame _ rfl rfl) (.bind (keeps_ok rfl (hsame _ rfl rfl)
    (.bind (keeps_ok rfl (hsame _ rfl rfl) (.bind (keeps_ofExcept (hsame _ rfl rfl)
      fun d hd => ?_)))))))
  obtain rfl : d = s.index + 1 := add_eq_ok hd
  refine .bind (keeps_ok rfl (hsame _ rfl rfl) (.bind ?_))
  refine Keeps.imp (keeps_clearFrame ?_ ?_) fun _ t' _ ht' => ?_
  · exact fun s' hindex _ hrounds => hsame s' hindex hrounds
  · exact fun s' w' answer _ _ hrounds => ⟨⟨hreset _ _, current_reset⟩, hrounds⟩
  obtain ⟨s', w', ℓ'⟩ := t'
  obtain ⟨hindex, hdepth, hrounds, rfl⟩ := ht'
  have hended : ∀ (s'' : Search) (w'' : σ), s''.stats.rounds = s.stats.rounds →
      Ended s.stats.rounds (s'', w'', .reset (s.index + 1) (.ok ()) :: ℓ) :=
    fun _ _ hrounds' => ⟨⟨hreset _ _, current_reset⟩, hrounds'⟩
  refine .bind (keeps_ok rfl (hended _ _ hrounds) (keeps_report (fun _ => hended _ _ hrounds)
    fun w'' => ⟨⟨hindex.trans h.index, ?_, ?_, ?_, hreset _ _, fun _ => current_reset⟩, hrounds⟩))
  · exact hdepth.trans (congrArg (· + 1) h.index)
  · exact (List.countP_cons_of_pos rfl).trans (congrArg (· + 1) h.resets)
  · exact congrArg some hdepth.symm

theorem keeps_rebuild {rounds : Nat} (h : Between r t) (hrounds : t.1.stats.rounds = rounds) :
    (rebuildCourse B.noted).Keeps (Ended rounds) t fun _ t' =>
      InRound (r + 1) t' ∧ Ended rounds t' := by
  have hI : ∀ t', Still t t' → Ended rounds t' := fun t' h' =>
    ⟨(h.still h').clear, h'.rounds.trans hrounds⟩
  refine calm_state.skip (.refl t) hI fun _ _ h₁ => ?_
  refine Calm.skip (calm_change fun _ => ⟨rfl, rfl, rfl⟩) h₁ hI fun _ _ h₂ => ?_
  refine (calm_forM (fun _ => calm_restore) _).skip h₂ hI fun _ _ h₃ => ?_
  refine Calm.skip (calm_change fun _ => ⟨rfl, rfl, rfl⟩) h₃ hI fun _ _ h₄ => ?_
  refine calm_countFrame.skip h₄ hI fun _ _ h₅ => ?_
  refine Calm.skip (calm_change fun _ => ⟨rfl, rfl, rfl⟩) h₅ hI fun _ _ h₆ => ?_
  refine calm_checkRefutations.skip h₆ hI fun _ (s, w, ℓ) h₇ => ?_
  refine .bind (keeps_ok rfl (hI _ h₇) (.bind (keeps_ok rfl (hI _ h₇)
    (.bind (keeps_ofExcept (hI _ h₇) fun index hindex => ?_)))))
  obtain rfl : index = s.index + s.depth := add_eq_ok hindex
  have hnext : InRound (r + 1) ({ s with
      index := s.index + s.depth, stats.frameIndex := s.index + s.depth }, w, ℓ) ∧ Clear _ :=
    (h.still h₇).next rfl rfl
  obtain ⟨hround, hclear⟩ := hnext
  exact keeps_ok rfl ⟨hclear, h₇.rounds.trans hrounds⟩ ⟨hround, hclear, h₇.rounds.trans hrounds⟩

theorem calm_sweep : Calm (.move (Search.act B.noted.oracle.sweep >>= fun
    | none => pure true
    | some r => relocate B.noted r >>= fun _ => pure true)) := by
  refine stays_move fun t => ?_
  have hcalm : Calm (sweepCourse B.noted) :=
    .bind (calm_act fun _ _ => ⟨rfl, rfl⟩) fun
      | none => calm_pure
      | some r => .bind (calm_relocate r) fun _ => calm_pure
  exact hcalm t _ (Course.final_mem _ t)

theorem keeps_advance (h : InRound r t) (hclear : Clear t) :
    (advanceCourse B.noted config).Keeps (Ended t.1.stats.rounds) t fun more t' =>
      more = true → InRound (r + 1) t' ∧ Clear t' := by
  refine .bind ((keeps_deepen h hclear).imp fun _ t₁ _ h₁ => ?_)
  obtain ⟨hbetween, hrounds⟩ := h₁
  have hI : ∀ t', Still t₁ t' → Ended t.1.stats.rounds t' := fun t' h' =>
    ⟨(hbetween.still h').clear, h'.rounds.trans hrounds⟩
  refine calm_state.skip (.refl t₁) hI fun s t₂ h₂ => keeps_branch (fun _ => ?_) fun _ => ?_
  · refine calm_report.skip h₂ hI fun _ t₃ h₃ => keeps_ok rfl (hI _ h₃) nofun
  · refine .bind ((keeps_rebuild (hbetween.still h₂) (h₂.rounds.trans hrounds)).imp
      fun _ t₃ _ h₃ => ?_)
    obtain ⟨hround₃, hclear₃, hrounds₃⟩ := h₃
    refine (calm_sweep.keeps fun t' h' => ?_).imp fun _ t' _ h' _ => h'.steady.round hround₃ hclear₃
    exact ⟨(h'.steady.round hround₃ hclear₃).2, h'.rounds.trans hrounds₃⟩

theorem Calm.clear {c : Course act} (h : Calm c) (hclear : Clear t) :
    c.Keeps Clear t fun _ t' => Clear t' :=
  (h.keeps fun _ h' => (h'.rest hclear).2.2).imp fun _ _ hI _ => hI

theorem keeps_rounds : ∀ {bound fuel r : Nat} {t : Search × σ × List (Note μ)}, InRound r t →
    Clear t → (roundsCourse B.noted config bound fuel).Keeps Clear t fun _ _ => True
  | 0, _, _, _, _, hclear => keeps_error rfl hclear
  | bound + 1, fuel, r, t, hr, hclear => by
      refine .bind (((steady_drainFrame fuel).keeps fun _ h => (h.round hr hclear).2).imp
        fun _ (s₁, w₁, ℓ₁) hclear₁ h₁ => ?_)
      have hr₁ := (h₁.round hr hclear).1
      have hclear₂ : Clear ({ s₁ with stats.rounds := s₁.stats.rounds + 1 }, w₁, ℓ₁) :=
        hclear₁.congr rfl
      refine .bind (keeps_ok rfl hclear₂ (.bind (keeps_ok rfl hclear₂ ?_)))
      refine keeps_branch (fun _ => keeps_ok rfl hclear₂ trivial) fun _ => keeps_branch
        (fun _ => ?_) fun _ => ?_
      · exact .bind ((calm_showInvariant.clear hclear₂).imp fun _ t₃ hclear₃ _ =>
          keeps_ok rfl hclear₃ trivial)
      · have hr₂ : InRound r ({ s₁ with stats.rounds := s₁.stats.rounds + 1 }, w₁, ℓ₁) :=
          hr₁.congr rfl rfl
        refine .bind (Keeps.imp ((keeps_advance hr₂ hclear₂).mono fun _ h => h.clear)
          fun more t₃ hclear₃ hnext => keeps_branch (fun hmore => ?_) fun _ =>
            keeps_ok rfl hclear₃ trivial)
        exact keeps_rounds (hnext hmore).1 (hnext hmore).2

theorem keeps_loop {fuel : Nat} (h : InRound 0 t) (hclear : Clear t) :
    (loopCourse B.noted config fuel).Keeps Clear t fun _ _ => True := by
  refine .bind ((calm_report.keeps fun _ h' => (h'.rest hclear).2.2).imp fun _ t₁ hclear₁ h₁ => ?_)
  have hround := (h₁.steady.round h hclear).1
  refine .bind ((keeps_rounds hround hclear₁).attempt.imp fun result t₂ hclear₂ _ => ?_)
  refine Keeps.imp (Calm.clear (.bind (calm_change fun _ => ⟨rfl, rfl, rfl⟩) fun _ =>
    .bind calm_ofAttempt fun _ => .bind calm_report fun _ =>
      .bind (calm_change fun _ => ⟨rfl, rfl, rfl⟩) fun _ => calm_pure) hclear₂)
    fun _ _ _ _ => trivial

theorem keeps_enter {fuel : Nat} {property : Formula} (h : Early ℓ) :
    (enterCourse B.noted fuel property).Keeps (Ended 0) (.blank, w, ℓ) fun answer t' =>
      answer = true → InRound 0 t' := by
  refine .bind (keeps_act (fun _ _ => ⟨(h.note ⟨rfl, rfl⟩).clear, rfl⟩) fun _ w₁ => ?_)
  have h₁ : Early (.other none :: ℓ) := h.note ⟨rfl, rfl⟩
  refine .bind (keeps_act (fun _ _ => ⟨(h₁.note ⟨rfl, rfl⟩).clear, rfl⟩) fun _ w₂ => ?_)
  have h₂ : Early (.other none :: .other none :: ℓ) := h₁.note ⟨rfl, rfl⟩
  refine .bind (keeps_ok rfl ⟨h₂.clear, rfl⟩ (.bind (Keeps.imp (keeps_clearFrame ?_ ?_)
    fun _ (s₃, w₃, ℓ₃) hended₃ h₃ => ?_)))
  · exact fun s' _ _ hrounds => ⟨h₂.clear, hrounds⟩
  · exact fun s' w' answer _ _ hrounds => ⟨h₂.clear_reset, hrounds⟩
  obtain ⟨hindex, hdepth, -, rfl⟩ := h₃
  have hround : InRound 0 (s₃, w₃, .reset 1 (.ok ()) :: .other none :: .other none :: ℓ) :=
    h₂.first hindex hdepth
  refine ((calm_addProperty fuel property).keeps fun _ h' => ?_).imp fun answer t₄ _ h₄ _ => ?_
  · exact ⟨(h'.rest hended₃.clear).2.2, h'.rounds.trans hended₃.rounds⟩
  · exact (h₄.steady.round hround hended₃.clear).1

theorem keeps_run {fuel : Nat} {property : Formula} (h : Early ℓ) :
    (runCourse B.noted config fuel property).Keeps Clear (.blank, w, ℓ) fun _ _ => True := by
  refine .bind (Keeps.imp ((keeps_enter h).mono fun _ h' => h'.clear)
    fun answer t₁ hclear₁ h₁ => keeps_branch (fun hanswer => ?_) fun _ => ?_)
  · exact keeps_loop (h₁ hanswer) hclear₁
  · refine Keeps.imp (Calm.clear (.bind calm_report fun _ => ?_) hclear₁) fun _ _ _ _ => trivial
    exact stays_move fun _ => ⟨rfl, rfl, rfl, .refl _⟩

end Search

namespace Engine

variable {S : Type} {B : Backend S σ μ} {config : Config} {fuel : Nat} {system : S}
  {property : Formula} {e : Engine σ}

/-- The states that a query passes through once the system is loaded. -/
def passed (B : Backend S σ μ) (config : Config) (fuel : Nat) (system : S) (property : Formula)
    (e : Engine σ) : List (Search × σ) :=
  match B.load system (reset B e).world with
  | .ok _ w => (Search.runCourse B config fuel property).visited (.blank, w)
  | .error _ _ => []

theorem clear_passed (hx : t ∈ passed B.noted config fuel system property e.noted) : Clear t := by
  rw [passed] at hx
  split at hx
  next w hload =>
    rw [reset_noted] at hload
    obtain ⟨answer, w', heq⟩ := Search.final_noting (fun answer _ => .other (faultOf answer))
      (B.load system) (reset B e).world []
    have hfinal : Action.final (B.noted.load system) ((reset B e).world, []) = w := by
      change B.noted.load system ((reset B e).world, []) = _ at hload
      rw [Action.final, hload]
    obtain rfl : w = (w', [.other (faultOf answer)]) := hfinal.symm.trans heq
    exact (Search.keeps_run early_loaded).1 t hx
  next => cases hx

end Engine

end Invariance
