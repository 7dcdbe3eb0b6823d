import Invariance.Proofs.Figures.Keeping
import Invariance.Proofs.Search.Turns
import Invariance.Proofs.Transcripts.Depths
import Invariance.Proofs.Transcripts.Windows
import Mathlib.Data.List.MinMax
import Mathlib.Order.Nat

/-!
The figures over a turn and over a drain. A turn that stages its obligation counts it, a turn that
finds a counterexample marks formulas and remembers the deepest frame, and all other turns keep the
figures. What a drain leaves is told from its turns.
-/

namespace Invariance.Search

open Action

variable {S σ μ : Type} {B : Backend S σ μ} {config : Config} {s s₁ s' : Search}
  {f g : Formula} {j k : Nat} {answer : Push}

/-- The frames at which formulas were marked between two states of a search. -/
def newMarks (s s' : Search) : List Nat :=
  (s'.lineage.invalid.entries.filter fun x => !s.lineage.isInvalid x.1).map Prod.snd

/-- The largest of these, and 0 if there are none. -/
def deepest (frames : List Nat) : Nat := frames.foldr max 0

theorem le_deepest {frames : List Nat} (h : j ∈ frames) : j ≤ deepest frames :=
  List.le_max_of_le h (Nat.le_refl j)

theorem deepest_le {frames : List Nat} (h : ∀ j ∈ frames, j ≤ k) : deepest frames ≤ k :=
  List.max_le_of_forall_le frames k h

theorem deepest_append (frames frames' : List Nat) :
    deepest (frames ++ frames') = max (deepest frames) (deepest frames') := by
  induction frames with
  | nil => exact (Nat.zero_max _).symm
  | cons k frames ih =>
      rw [List.cons_append]
      exact (congrArg (max k) ih).trans (Nat.max_assoc _ _ _).symm

theorem eq_max_deepest {frames : List Nat} {m : Nat} (hle : j ≤ m) (hall : ∀ i ∈ frames, i ≤ m)
    (hattained : m = j ∨ m ∈ frames) : m = max j (deepest frames) := by
  refine Nat.le_antisymm ?_ (Nat.max_le.mpr ⟨hle, deepest_le hall⟩)
  rcases hattained with rfl | hm
  · exact Nat.le_max_left _ _
  · exact Nat.le_trans (le_deepest hm) (Nat.le_max_right _ _)

theorem mem_newMarks : j ∈ newMarks s s' ↔
    ∃ g, s.lineage.invalid.get? g = none ∧ s'.lineage.invalid.get? g = some j := by
  rw [newMarks, List.mem_map]
  constructor
  · rintro ⟨⟨g, i⟩, h, rfl⟩
    obtain ⟨hentry, hnew⟩ := List.mem_filter.mp h
    rw [Bool.not_eq_true'] at hnew
    exact ⟨g, FormulaMap.contains_eq_false.mp hnew, FormulaMap.mem_entries.mp hentry⟩
  · rintro ⟨g, hnone, hsome⟩
    refine ⟨(g, j), List.mem_filter.mpr ⟨FormulaMap.mem_entries.mpr hsome, ?_⟩, rfl⟩
    rw [Bool.not_eq_true']
    exact FormulaMap.contains_eq_false.mpr hnone

theorem newMarks_eq_nil (h : s'.lineage.invalid = s.lineage.invalid) : newMarks s s' = [] := by
  refine List.eq_nil_iff_forall_not_mem.mpr fun j hj => ?_
  obtain ⟨g, hnone, hsome⟩ := mem_newMarks.mp hj
  rw [h, hnone] at hsome
  cases hsome

/-! Marks. -/

structure Marks (f : Formula) (k : Nat) (s s' : Search) : Prop extends Paced s s' where
  fresh : s.lineage.invalid.get? f = none
  get? : ∀ g, s'.lineage.invalid.get? g = if g = f then some k else s.lineage.invalid.get? g
  maxCexDepth : s'.stats.maxCexDepth = s.stats.maxCexDepth

theorem answers_markInvalid (x : Search × σ) :
    (markInvalid f k).Answers x fun _ y => Marks f k x.1 y.1 ∧ y.2 = x.2 := by
  refine .bind (.ite (fun _ => .bind (answers_ofExcept fun lineage hmark => ?_)) fun _ =>
    .bind trivial)
  rw [Lineage.markInvalid] at hmark
  split at hmark
  next => cases hmark
  next hfresh =>
    obtain rfl := Except.ok.inj hmark
    refine ⟨⟨⟨rfl, fun h => ⟨h.frameIndex, h.frameSize, h.queueSize⟩⟩, ?_,
      fun g => FormulaMap.get?_insert .., rfl⟩, rfl⟩
    exact FormulaMap.contains_eq_false.mp (Bool.eq_false_iff.mpr hfresh)

/-- What a climb that begins at frame `k` leaves. -/
structure Rises (k : Nat) (s s' : Search) : Prop extends Paced s s' where
  held : ∀ {g j}, s.lineage.invalid.get? g = some j → s'.lineage.invalid.get? g = some j
  le : s.stats.maxCexDepth ≤ s'.stats.maxCexDepth
  start_le : k ≤ s'.stats.maxCexDepth
  bound : ∀ j ∈ newMarks s s', j ≤ s'.stats.maxCexDepth
  attained : s'.stats.maxCexDepth = s.stats.maxCexDepth ∨ s'.stats.maxCexDepth = k ∨
    s'.stats.maxCexDepth ∈ newMarks s s'

/-- A formula is marked, and the climb begins with it. -/
theorem Marks.rises (hmark : Marks f k s s₁) (h : Rises k s₁ s') :
    (∀ j ∈ newMarks s s', j ≤ s'.stats.maxCexDepth) ∧
      (s'.stats.maxCexDepth = s.stats.maxCexDepth ∨ s'.stats.maxCexDepth ∈ newMarks s s') := by
  have hf : s'.lineage.invalid.get? f = some k := h.held ((hmark.get? f).trans (if_pos rfl))
  constructor
  · intro j hj
    obtain ⟨g, hnone, hsome⟩ := mem_newMarks.mp hj
    by_cases hg : g = f
    · rw [hg, hf] at hsome
      exact Option.some.inj hsome ▸ h.start_le
    · exact h.bound j (mem_newMarks.mpr ⟨g, ((hmark.get? g).trans (if_neg hg)).trans hnone, hsome⟩)
  · rcases h.attained with heq | heq | hm
    · exact Or.inl (heq.trans hmark.maxCexDepth)
    · exact Or.inr (mem_newMarks.mpr ⟨f, hmark.fresh, heq ▸ hf⟩)
    · obtain ⟨g, hnone, hsome⟩ := mem_newMarks.mp hm
      rw [hmark.get?] at hnone
      split at hnone
      · cases hnone
      · exact Or.inr (mem_newMarks.mpr ⟨g, hnone, hsome⟩)

theorem Kept.rises (h : Kept s s') (hk : k ≤ s.stats.maxCexDepth) : Rises k s s' where
  toPaced := h.toPaced
  held hg := h.invalid ▸ hg
  le := Nat.le_of_eq h.maxCexDepth.symm
  start_le := h.maxCexDepth ▸ hk
  bound _ hj := absurd (newMarks_eq_nil h.invalid ▸ hj) List.not_mem_nil
  attained := Or.inl h.maxCexDepth

theorem newMarks_kept (h : Kept s s₁) : newMarks s s' = newMarks s₁ s' := by
  simp only [newMarks, Lineage.isInvalid, h.invalid]

theorem Rises.after (h : Rises k s₁ s') (hkept : Kept s s₁) : Rises k s s' where
  toPaced := hkept.toPaced.trans h.toPaced
  held hg := h.held (hkept.invalid ▸ hg)
  le := hkept.maxCexDepth ▸ h.le
  start_le := h.start_le
  bound := newMarks_kept hkept ▸ h.bound
  attained := by
    rw [newMarks_kept hkept, ← hkept.maxCexDepth]
    exact h.attained

theorem Rises.before (h : Rises k s s₁) (hkept : Kept s₁ s') : Rises k s s' where
  toPaced := h.toPaced.trans hkept.toPaced
  held hg := hkept.invalid ▸ h.held hg
  le := hkept.maxCexDepth ▸ h.le
  start_le := hkept.maxCexDepth ▸ h.start_le
  bound := by
    rw [newMarks, hkept.invalid, hkept.maxCexDepth]
    exact h.bound
  attained := by
    rw [newMarks, hkept.invalid, hkept.maxCexDepth]
    exact h.attained

/-- One step of a climb: the parent is marked at frame `j`, and the climb goes on from there. -/
theorem Rises.step (h : Rises j s₁ s') (hmark : Marks f j s s₁) (hk : k ≤ s.stats.maxCexDepth) :
    Rises k s s' := by
  obtain ⟨hbound, hattained⟩ := hmark.rises h
  have hle : s.stats.maxCexDepth ≤ s'.stats.maxCexDepth := hmark.maxCexDepth ▸ h.le
  refine ⟨hmark.toPaced.trans h.toPaced, fun {g _} hg => h.held ?_, hle, Nat.le_trans hk hle,
    hbound, hattained.imp id Or.inr⟩
  rw [hmark.get?]
  split
  next heq =>
    rw [heq, hmark.fresh] at hg
    cases hg
  next => exact hg

theorem Rises.raise
    (h : Rises k { s with stats.maxCexDepth := max s.stats.maxCexDepth k } s') : Rises k s s' where
  clock := h.clock
  tallied hs := h.tallied ⟨hs.frameIndex, hs.frameSize, hs.queueSize⟩
  held := h.held
  le := Nat.le_trans (Nat.le_max_left _ _) h.le
  start_le := h.start_le
  bound := h.bound
  attained := by
    rcases h.attained with heq | heq
    · rcases Nat.le_total k s.stats.maxCexDepth with hk | hk
      · exact Or.inl (heq.trans (Nat.max_eq_left hk))
      · exact Or.inr (Or.inl (heq.trans (Nat.max_eq_right hk)))
    · exact Or.inr heq

theorem Marks.trans (h : Marks f k s s₁) (h' : Kept s₁ s') : Marks f k s s' where
  toPaced := h.toPaced.trans h'.toPaced
  fresh := h.fresh
  get? g := by rw [h'.invalid, h.get?]
  maxCexDepth := h'.maxCexDepth.trans h.maxCexDepth

theorem answers_state {x : Search × σ} {Q : Search → Search × σ → Prop} (h : Q x.1 x) :
    (state : SearchM σ Search).Answers x Q :=
  h

/-- A climb counts the frame that it has come to before anything else, and goes on with the parent
that it has marked. -/
theorem answers_climb : ∀ (bound : Nat) (f : Formula) (k : Nat) (x : Search × σ),
    (climb B bound f k).Answers x fun _ y => Rises k x.1 y.1
  | 0, _, _, _ => yields_throw trivial
  | bound + 1, f, k, x => by
      refine Yields.imp (Yields.bind ?_) fun _ y h => Rises.raise h
      have hk : k ≤ max x.1.stats.maxCexDepth k := Nat.le_max_right _ _
      refine .bind ((keeping_negate f _).imp fun g x₁ h₁ => ?_)
      refine .bind ((keeping_bump g x₁).imp fun _ x₂ h₂ => .bind (answers_state ?_))
      cases x₂.1.lineage.origin? f with
      | none =>
          refine Yields.imp (Keeping.ite ((keeping_ask B.solver.depth).bind fun _ => keeping_report)
            (keeping_pure ()) x₂) fun _ y hy => ?_
          exact ((h₁.trans h₂).trans hy).rises hk
      | some origin =>
          refine .bind ((keeping_checkedAdd k origin.depth x₂).imp fun j x₃ h₃ => ?_)
          have h₀₃ := (h₁.trans h₂).trans h₃
          refine .ite (fun _ => yields_pure (h₀₃.rises hk)) fun _ => ?_
          refine .bind ((keeping_assertFalseAt _ _ x₃).imp fun _ x₄ h₄ => ?_)
          refine .bind ((keeping_act _ x₄).imp fun verdict x₅ h₅ => ?_)
          have h₀₅ := (h₀₃.trans h₄).trans h₅
          refine .ite (fun _ => ?_) fun _ =>
            (keeping_report x₅).imp fun _ y hy => (h₀₅.trans hy).rises hk
          refine .bind ((answers_markInvalid x₅).imp fun _ x₆ hmark => ?_)
          refine .bind ((keeping_recordModel x₆).imp fun _ x₇ h₇ => ?_)
          refine .bind ((keeping_report x₇).imp fun _ x₈ h₈ => ?_)
          exact (answers_climb bound origin.parent j x₈).imp fun _ y hy =>
            (hy.step (hmark.1.trans (h₇.trans h₈)) (h₀₅.maxCexDepth ▸ hk)).after h₀₅

/-! Counterexamples. -/

theorem answers_checkedAdd (a b : Nat) (x : Search × σ) :
    (checkedAdd B a b).Answers x fun n y => n = a + b ∧ y = x :=
  answers_ofExcept fun _ h => ⟨add_eq_ok h, rfl⟩

theorem answers_lastFrame (trace : List Formula) (x : Search × σ) :
    (lastFrame B trace).Answers x fun k y => k = trace.length - 1 + x.1.depth ∧ y = x :=
  .bind (answers_checkedAdd _ _ x)

/-- What an extension that begins at frame `k` leaves. -/
structure Follows (config : Config) (k : Nat) (s s' : Search) : Prop where
  rises : config.extend = true → Rises k s s'
  kept : config.extend = false → Kept s s'

theorem Follows.after (h : Follows config k s₁ s') (hkept : Kept s s₁) : Follows config k s s' where
  rises hextend := (h.rises hextend).after hkept
  kept hextend := hkept.trans (h.kept hextend)

theorem Follows.before (h : Follows config k s s₁) (hkept : Kept s₁ s') :
    Follows config k s s' where
  rises hextend := (h.rises hextend).before hkept
  kept hextend := (h.kept hextend).trans hkept

theorem answers_extendInScope (trace : List Formula) (x : Search × σ) :
    (extendInScope B config f trace).Answers x
      fun _ y => Follows config (trace.length - 1 + x.1.depth) x.1 y.1 := by
  refine .bind ((keeping_assertTrace 0 trace x).imp fun _ x₁ h₁ => ?_)
  refine .bind ((answers_lastFrame trace x₁).imp fun k x₂ h₂ => ?_)
  obtain ⟨rfl, rfl⟩ := h₂
  have hdepth : x₂.1.depth = x.1.depth := congrArg Clock.depth h₁.clock
  rw [hdepth]
  refine .bind ((keeping_assertFalseAt f _ x₂).imp fun _ x₃ h₃ => ?_)
  refine .bind ((keeping_act _ x₃).imp fun verdict x₄ h₄ => .ite (fun _ => ?_) fun _ =>
    .bind trivial)
  refine .bind ((keeping_recordModel x₄).imp fun _ x₅ h₅ => ?_)
  have h₀₅ := ((h₁.trans h₃).trans h₄).trans h₅
  refine .ite (fun hextend => .bind ?_) fun hextend => yields_pure ?_
  · refine (answers_climb _ f _ x₅).imp fun _ y hy => ⟨fun _ => hy.after h₀₅, fun hnot => ?_⟩
    rw [hextend] at hnot
    cases hnot
  · exact ⟨fun hyes => absurd hyes hextend, fun _ => h₀₅⟩

theorem answers_extendFailure (x : Search × σ) :
    (extendFailure B config f).Answers x fun _ y =>
      Follows config ((B.reachability.counterTrace x.2).length - 1 + x.1.depth) x.1 y.1 := by
  refine .bind (.ite (fun _ => .bind trivial) fun _ => .bind (.bind ?_))
  refine (answers_lastFrame _ x).imp fun k x₁ h₁ => .ite (fun _ => .bind ?_) fun _ => .bind trivial
  obtain ⟨rfl, rfl⟩ := h₁
  refine (answers_checkedAdd _ _ x₁).imp fun depth x₂ h₂ => .bind (.bind (.bind ?_))
  obtain ⟨rfl, rfl⟩ := h₂
  refine (answers_extendInScope _ _).attempt.imp fun result x₃ h₃ => .bind ?_
  refine (keeping_act _ x₃).imp fun _ x₄ h₄ => ?_
  rcases h₃ with ⟨_, rfl, hfollows⟩ | ⟨e, rfl, _⟩
  · exact yields_pure (hfollows.before h₄)
  · trivial

/-- What a turn leaves that finds its counter-state reachable: all marks are counted if the
counterexample is extended, and otherwise none. -/
structure Disproves (B : Backend S σ μ) (config : Config) (s s' : Search) : Prop extends
    Paced s s' where
  maxCexDepth : B.Discreet → s'.stats.maxCexDepth =
    max s.stats.maxCexDepth (if config.extend then deepest (newMarks s s') else 0)

theorem Follows.paced (h : Follows config k s s') : Paced s s' := by
  cases hextend : config.extend with
  | true => exact (h.rises hextend).toPaced
  | false => exact (h.kept hextend).toPaced

theorem Marks.follows (hmark : Marks f k s s₁) (h : Follows config k s₁ s') :
    s'.stats.maxCexDepth =
      max s.stats.maxCexDepth (if config.extend then deepest (newMarks s s') else 0) := by
  cases hextend : config.extend with
  | true =>
      have hrises := h.rises hextend
      obtain ⟨hbound, hattained⟩ := hmark.rises hrises
      rw [if_pos rfl]
      exact eq_max_deepest (hmark.maxCexDepth ▸ hrises.le) hbound hattained
  | false =>
      rw [if_neg Bool.false_ne_true, Nat.max_zero]
      exact (h.kept hextend).maxCexDepth.trans hmark.maxCexDepth

theorem answers_report {level : Level} {message : String}
    {fields : Search → (Formula → String) → List (String × Field)} {x : Search × σ}
    {Q : Unit → Search × σ → Prop} (h : ∀ event, Q () (x.1, B.reports.report event x.2)) :
    (report B level message fields).Answers x Q :=
  h _

theorem answers_failInduction (x : Search × σ) :
    (failInduction B config f).Answers x fun _ y => Disproves B config x.1 y.1 := by
  refine .bind (.ite (fun _ => .bind trivial) fun _ => .bind ?_)
  refine (answers_lastFrame _ x).imp fun k x₁ h₁ => .bind (answers_report fun event => .bind ?_)
  obtain ⟨hk, rfl⟩ := h₁
  refine (answers_markInvalid _).imp fun _ x₂ h₂ => .bind (.bind ?_)
  obtain ⟨hmark, hworld⟩ := h₂
  have hproperty : Kept x₂.1 { x₂.1 with lineage := x₂.1.lineage.markPropertyInvalid } :=
    .lineage rfl
  have hset := hmark.trans hproperty
  refine (answers_extendFailure _).imp fun _ y hy => ⟨hset.toPaced.trans hy.paced, fun hB => ?_⟩
  have hdepth : x₂.1.depth = x₁.1.depth := congrArg Clock.depth hmark.clock
  have hstart : (B.reachability.counterTrace x₂.2).length - 1 + x₂.1.depth = k := by
    rw [hworld, hB event, hdepth, hk]
  exact hset.follows (hstart ▸ hy)

/-! Turns. -/

/-- A part of a round in which `n` obligations were staged and formulas were marked at these
frames. -/
structure Progress (B : Backend S σ μ) (config : Config) (n : Nat) (frames : List Nat)
    (s s' : Search) : Prop where
  clock : s'.clock = { s.clock with staged := s'.staged, framePushed := s'.stats.framePushed }
  tallied : s.Tallied → s'.Tallied
  staged : s'.staged.length = s.staged.length + n
  framePushed : s.stats.framePushed = s.staged.length → s'.stats.framePushed = s'.staged.length
  maxCexDepth : B.Discreet → s'.stats.maxCexDepth =
    max s.stats.maxCexDepth (if config.extend then deepest frames else 0)

theorem Paced.progress {frames : List Nat} (h : Paced s s')
    (hdeepest : B.Discreet → s'.stats.maxCexDepth =
      max s.stats.maxCexDepth (if config.extend then deepest frames else 0)) :
    Progress B config 0 frames s s' := by
  have hstaged : s'.staged = s.staged := congrArg Clock.staged h.clock
  have hpushed : s'.stats.framePushed = s.stats.framePushed := congrArg Clock.framePushed h.clock
  refine ⟨?_, h.tallied, congrArg List.length hstaged, fun hs => ?_, hdeepest⟩
  · rw [h.clock, hstaged, hpushed]
    rfl
  · rw [hpushed, hstaged, hs]

theorem max_deepest_nil (m : Nat) : max m (if config.extend then deepest [] else 0) = m := by
  rw [show deepest [] = 0 from rfl, ite_self, Nat.max_zero]

theorem Kept.progress (h : Kept s s') : Progress B config 0 [] s s' :=
  h.toPaced.progress fun _ => h.maxCexDepth.trans (max_deepest_nil _).symm

namespace Progress

variable {n n' : Nat} {frames frames' : List Nat}

theorem trans (h : Progress B config n frames s s₁) (h' : Progress B config n' frames' s₁ s') :
    Progress B config (n + n') (frames ++ frames') s s' where
  clock := by rw [h'.clock, h.clock]
  tallied hs := h'.tallied (h.tallied hs)
  staged := by rw [h'.staged, h.staged, Nat.add_assoc]
  framePushed hs := h'.framePushed (h.framePushed hs)
  maxCexDepth hB := by
    rw [h'.maxCexDepth hB, h.maxCexDepth hB, deepest_append, Nat.max_assoc]
    cases config.extend <;> rfl

theorem after (h : Progress B config n (newMarks s₁ s') s₁ s') (hkept : Kept s s₁) :
    Progress B config n (newMarks s s') s s' := by
  have hall := hkept.progress.trans h
  rwa [Nat.zero_add, List.nil_append, ← newMarks_kept hkept] at hall

theorem before (h : Progress B config n (newMarks s s₁) s s₁) (hkept : Kept s₁ s') :
    Progress B config n (newMarks s s') s s' := by
  have hall := h.trans hkept.progress
  rw [List.append_nil, newMarks, ← hkept.invalid] at hall
  exact hall

theorem unmarked (h : Progress B config n [] s s')
    (hinvalid : s'.lineage.invalid = s.lineage.invalid) :
    Progress B config n (newMarks s s') s s' := by
  rwa [newMarks_eq_nil hinvalid]

end Progress

theorem progress_staged (s : Search) (ob : Obligation) : Progress B config 1 [] s
    { s with
      staged := s.staged ++ [ob]
      stats.framePushed := (s.staged ++ [ob]).length } where
  clock := rfl
  tallied h := ⟨h.frameIndex, h.frameSize, h.queueSize⟩
  staged := List.length_append
  framePushed _ := rfl
  maxCexDepth _ := (max_deepest_nil _).symm

def Push.stagings : Push → Nat
  | .staged => 1
  | _ => 0

theorem answers_carry (ob : Obligation) (forward : Formula) (x : Search × σ) :
    (carry B ob forward).Answers x fun answer y =>
      Progress B config answer.stagings (newMarks x.1 y.1) x.1 y.1 := by
  refine .bind (.bind (answers_act fun _ _ => .bind (answers_act fun _ _ => .bind ?_)))
  exact (progress_staged x.1 _).unmarked rfl

theorem answers_stage (ob : Obligation) (refutation : Formula) (x : Search × σ) :
    (stage B ob refutation).Answers x fun answer y =>
      Progress B config answer.stagings (newMarks x.1 y.1) x.1 y.1 := by
  refine .bind ((keeping_report x).imp fun _ x₁ h₁ => ?_)
  refine .bind ((keeping_act _ x₁).imp fun verdict x₂ h₂ => ?_)
  have h₀₂ := h₁.trans h₂
  cases verdict with
  | unsat => exact (answers_carry ob ob.forward x₂).imp fun _ _ hy => hy.after h₀₂
  | unknown => trivial
  | sat generalization model =>
      refine .bind ((keeping_weaken ob refutation x₂).imp fun weaker x₃ h₃ => ?_)
      exact (answers_carry ob weaker x₃).imp fun _ _ hy => hy.after (h₀₂.trans h₃)

theorem answers_answerCounter (ob : Obligation) (refutation counter : Formula) (model : μ)
    (x : Search × σ) : (answerCounter B config ob refutation counter model).Answers x
      fun answer y => Progress B config answer.stagings (newMarks x.1 y.1) x.1 y.1 := by
  refine .bind ((keeping_report x).imp fun _ x₁ h₁ => .bind ?_)
  refine .bind (answers_ofExcept fun (first, last) _ => .bind ?_)
  refine (keeping_act _ x₁).imp fun reachable x₂ h₂ => .bind ?_
  refine (keeping_report x₂).imp fun _ x₃ h₃ => .ite (fun _ => .bind ?_) fun _ => ?_
  · refine (answers_failInduction x₃).imp fun _ y hy => yields_pure ?_
    exact (hy.progress hy.maxCexDepth).after ((h₁.trans h₂).trans h₃)
  · refine (answering_refine ob refutation counter x₃).imp fun answer y hy => ?_
    obtain ⟨rfl, hkept⟩ := hy
    exact (hkept.progress.unmarked hkept.invalid).after ((h₁.trans h₂).trans h₃)

theorem answers_push (ob : Obligation) (x : Search × σ) :
    (push B config ob).Answers x fun answer y =>
      Progress B config answer.stagings (newMarks x.1 y.1) x.1 y.1 := by
  refine .bind ((keeping_report x).imp fun _ x₁ h₁ => ?_)
  refine .bind ((keeping_negate ob.counter x₁).imp fun refutation x₂ h₂ => ?_)
  refine .bind ((keeping_act _ x₂).imp fun verdict x₃ h₃ => ?_)
  have h₀₃ := (h₁.trans h₂).trans h₃
  match verdict with
  | .unsat => exact (answers_stage ob refutation x₃).imp fun _ _ hy => hy.after h₀₃
  | .unknown => trivial
  | .sat none _ => trivial
  | .sat (some _) none => trivial
  | .sat (some counter) (some model) =>
      exact (answers_answerCounter ob refutation counter model x₃).imp fun _ _ hy => hy.after h₀₃

theorem answers_turn (x : Search × σ) :
    (turn B config).Answers x fun answer y =>
      Progress B config answer.stagings (newMarks x.1 y.1) x.1 y.1 := by
  refine .bind ((keeping_pop x).imp fun ob x₁ h₁ => ?_)
  refine .bind ((answers_push ob x₁).imp fun answer x₂ h₂ => ?_)
  have h₀₂ := h₂.after h₁
  refine .ite (fun _ => .bind ?_) fun _ => yields_pure h₀₂
  exact (keeping_enqueue ob x₂).imp fun _ _ hy => yields_pure (h₀₂.before hy)

/-! Drains. -/

def Turn.stages (t : Turn σ) : Bool := t.answer = some .staged

def Turn.marks (t : Turn σ) : List Nat := newMarks t.before.1 t.after.1

/-- What a drain leaves is told from its turns, by induction on the fuel. -/
theorem progress_drain : ∀ (fuel : Nat) (x : Search × σ),
    (drain B config fuel).Answers x fun _ y =>
      Progress B config ((turns B config fuel x).countP Turn.stages)
        ((turns B config fuel x).flatMap Turn.marks) x.1 y.1
  | 0, x => yields_throw trivial
  | fuel + 1, x => by
      rw [Answers, Yields, run_drain_succ]
      cases hstop : x.1.agenda.isEmpty || x.1.lineage.propertyInvalid with
      | true =>
          rw [if_pos rfl, turns_of_stop hstop]
          exact (Kept.refl x.1).progress
      | false =>
          rw [if_neg Bool.false_ne_true]
          cases hrun : turn B config x with
          | error fault y => trivial
          | ok answer y =>
              have hturn := (answers_turn x).of_ok hrun
              have hstages : answer.stagings + (turns B config fuel y).countP Turn.stages =
                  (⟨x, some answer, y⟩ :: turns B config fuel y).countP Turn.stages := by
                rw [List.countP_cons, Nat.add_comm]
                cases answer <;> rfl
              rw [turns_of_ok hstop hrun, ← hstages, List.flatMap_cons]
              exact (progress_drain fuel y).imp fun _ _ hz => hturn.trans hz

end Invariance.Search
