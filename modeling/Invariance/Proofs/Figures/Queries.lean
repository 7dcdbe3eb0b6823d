import Invariance.Proofs.Figures.Turns
import Invariance.Proofs.Transcripts.Limits

/-!
The figures of a query. They are brought up to date from round to round, and a relocation after the
query keeps them so. Main statement: after every query with an answer, and after every relocation
that follows it, each figure is what it is a figure of, but that the induction depth is not counted
before the second frame: it is 0 after a query that ends with its first round.
-/

namespace Invariance

open Action Scripted

variable {S σ μ : Type} {B : Backend S σ μ} {config : Config} {s s₁ s' : Search}
  {more : Bool}

namespace Search

/-! Between two rounds. -/

theorem answers_deepen (x : Search × σ) : (deepen B).Answers x fun _ y =>
    y.1.clock = { x.1.clock with depth := y.1.depth, inductionDepth := y.1.depth } ∧
      (x.1.Tallied → y.1.Tallied) ∧ y.1.stats.maxCexDepth = x.1.stats.maxCexDepth := by
  refine .bind (.bind (.bind (.bind (answers_ofExcept fun depth _ => .bind (.bind ?_)))))
  refine (keeping_clearFrame depth _).imp fun _ y hy => ?_
  have hdepth : y.1.depth = depth := congrArg Clock.depth hy.clock
  have hclock : { y.1.clock with inductionDepth := depth } =
      { x.1.clock with depth := y.1.depth, inductionDepth := y.1.depth } := by
    rw [hy.clock, hdepth]
    rfl
  refine And.intro hclock (And.intro (fun h => ?_) hy.maxCexDepth)
  obtain ⟨hindex, hframe, hqueue⟩ := hy.tallied ⟨h.frameIndex, h.frameSize, rfl⟩
  exact ⟨hindex, hframe, hqueue⟩

theorem answers_rebuild (x : Search × σ) : (rebuild B).Answers x fun _ y =>
    y.1.clock = { x.1.clock with
      index := y.1.index, frameIndex := y.1.index, staged := [], framePushed := 0 } ∧
      (x.1.Tallied → y.1.Tallied) ∧ y.1.stats.maxCexDepth = x.1.stats.maxCexDepth := by
  refine .bind (.bind (.bind ?_))
  refine (keeping_forM (keeping_restore (B := B)) x.1.staged _).imp fun _ x₁ h₁ => ?_
  refine .bind (.bind (.bind (.bind ?_)))
  refine (keeping_checkRefutations _).imp fun _ x₂ h₂ => ?_
  refine .bind (.bind (.bind (answers_ofExcept fun index _ => ?_)))
  have hclock : { x₂.1.clock with index, frameIndex := index } =
      { x.1.clock with index, frameIndex := index, staged := [], framePushed := 0 } := by
    rw [h₂.clock]
    change { x₁.1.clock with index, frameIndex := index, framePushed := 0 } = _
    rw [h₁.clock]
    rfl
  refine And.intro hclock (And.intro (fun h => ?_) (h₂.maxCexDepth.trans h₁.maxCexDepth))
  obtain ⟨hindex, _, hqueue⟩ := h₁.tallied ⟨h.frameIndex, h.frameSize, h.queueSize⟩
  obtain ⟨_, hframe, hqueue⟩ := h₂.tallied ⟨hindex, rfl, hqueue⟩
  exact ⟨rfl, hframe, hqueue⟩

theorem answers_relocate (r : Relocation) (x : Search × σ) : (relocate B r).Answers x fun _ y =>
    Paced x.1 y.1 ∧ y.1.stats.maxCexDepth = x.1.stats.maxCexDepth := by
  refine .bind (.ite (fun _ => .bind (.bind ?_)) fun _ => .bind trivial)
  refine .bind (answers_ofExcept fun (lost, agenda) _ => ?_)
  have hkeep : Keeping (agenda.bySlot.filterM fun ob => do
      return (← state).frame.contains (← negate B ob.counter)) :=
    keeping_filterM (fun _ => keeping_state.bind fun _ => (keeping_negate _).bind fun _ =>
      keeping_pure _) _
  refine .bind ((hkeep _).imp fun kept x₁ h₁ => .bind (answers_ofExcept fun agenda' _ => .bind ?_))
  refine .bind ((keeping_checkRefutations _).imp fun _ x₂ h₂ => ?_)
  have hclock : x₂.1.clock = x.1.clock := h₂.clock.trans h₁.clock
  have hindex : x.1.Tallied → x₂.1.stats.frameIndex = x₂.1.index := fun h =>
    (congrArg Clock.frameIndex hclock).trans (h.frameIndex.trans (congrArg Clock.index hclock).symm)
  refine And.intro (Paced.mk hclock fun h => ?_) (h₂.maxCexDepth.trans h₁.maxCexDepth)
  exact ⟨hindex h, rfl, rfl⟩

/-- What comes between two rounds, or after the last one if there are to be no more. -/
structure Advanced (more : Bool) (s s' : Search) : Prop where
  tallied : s.Tallied → s'.Tallied
  maxCexDepth : s'.stats.maxCexDepth = s.stats.maxCexDepth
  rounds : s'.stats.rounds = s.stats.rounds
  inductionDepth : s'.stats.inductionDepth = s'.depth
  framePushed : s'.stats.framePushed = if more then 0 else s.stats.framePushed
  staged : more = true → s'.staged = []

theorem Advanced.before (h : Advanced more s s₁) (h' : Paced s₁ s')
    (hmax : s'.stats.maxCexDepth = s₁.stats.maxCexDepth) : Advanced more s s' where
  tallied hs := h'.tallied (h.tallied hs)
  maxCexDepth := hmax.trans h.maxCexDepth
  rounds := (congrArg Clock.rounds h'.clock).trans h.rounds
  inductionDepth := (congrArg Clock.inductionDepth h'.clock).trans
    (h.inductionDepth.trans (congrArg Clock.depth h'.clock).symm)
  framePushed := (congrArg Clock.framePushed h'.clock).trans h.framePushed
  staged hmore := (congrArg Clock.staged h'.clock).trans (h.staged hmore)

theorem answers_advance (x : Search × σ) : (advance B config).Answers x fun more y =>
    Advanced more x.1 y.1 := by
  refine .bind ((answers_deepen x).imp fun _ x₁ h₁ => .bind ?_)
  obtain ⟨hclock₁, htallied₁, hmax₁⟩ := h₁
  refine .ite (fun _ => ?_) fun _ => .bind ((answers_rebuild x₁).imp fun _ x₂ h₂ => ?_)
  · have hlast : Advanced false x.1 x₁.1 := ⟨htallied₁, hmax₁, congrArg Clock.rounds hclock₁,
      congrArg Clock.inductionDepth hclock₁, congrArg Clock.framePushed hclock₁, nofun⟩
    exact .bind ((keeping_report x₁).imp fun _ _ hy => hlast.before hy.toPaced hy.maxCexDepth)
  · obtain ⟨hclock₂, htallied₂, hmax₂⟩ := h₂
    have hdepth : x₂.1.depth = x₁.1.depth := congrArg Clock.depth hclock₂
    have hinduction : x₂.1.stats.inductionDepth = x₁.1.stats.inductionDepth :=
      congrArg Clock.inductionDepth hclock₂
    have hinduction₁ : x₁.1.stats.inductionDepth = x₁.1.depth :=
      congrArg Clock.inductionDepth hclock₁
    have hmore : Advanced true x.1 x₂.1 := ⟨fun h => htallied₂ (htallied₁ h), hmax₂.trans hmax₁,
      (congrArg Clock.rounds hclock₂).trans (congrArg Clock.rounds hclock₁),
      hinduction.trans (hinduction₁.trans hdepth.symm),
      congrArg Clock.framePushed hclock₂, fun _ => congrArg Clock.staged hclock₂⟩
    refine .bind ((keeping_act _ x₂).imp fun moved x₃ h₃ => ?_)
    have hswept := hmore.before h₃.toPaced h₃.maxCexDepth
    cases moved with
    | none => exact hswept
    | some r => exact .bind ((answers_relocate r x₃).imp fun _ _ hy => hswept.before hy.1 hy.2)

/-! Rounds. -/

namespace Round

variable (B config)

def turns (r : Round σ) : List (Turn σ) := Search.turns B config r.fuel r.start

/-- How many obligations the round staged. -/
def stagings (r : Round σ) : Nat := (r.turns B config).countP Turn.stages

/-- The frames at which the round marked formulas. -/
def marks (r : Round σ) : List Nat := (r.turns B config).flatMap Turn.marks

def completed (r : Round σ) : Bool := (answer? (drainFrame B config r.fuel r.start)).isSome

end Round

/-- How a round begins. -/
structure Cleared (s : Search) : Prop where
  tallied : s.Tallied
  staged : s.staged = []
  framePushed : s.stats.framePushed = 0

/-- Whether the induction depth was set at the end of a round. -/
def deepened : Outcome ⊕ Nat → Bool
  | .inl outcome => outcome = .interrupted
  | .inr _ => true

/-- What a round leaves that leads to an answer or to the next round. -/
structure Rounded (B : Backend S σ μ) (config : Config) (r : Round σ) (result : Outcome ⊕ Nat)
    (s' : Search) : Prop where
  completed : r.completed B config = true
  tallied : s'.Tallied
  rounds : s'.stats.rounds = r.start.1.stats.rounds + 1
  maxCexDepth : B.Discreet → s'.stats.maxCexDepth = max r.start.1.stats.maxCexDepth
    (if config.extend then deepest (r.marks B config) else 0)
  depth : deepened result = false → s'.depth = r.start.1.depth
  inductionDepth : s'.stats.inductionDepth =
    if deepened result then s'.depth else r.start.1.stats.inductionDepth
  framePushed : ∀ outcome, result = .inl outcome → s'.stats.framePushed = r.stagings B config
  cleared : ∀ rest, result = .inr rest → Cleared s'

theorem progress_drainFrame (r : Round σ) :
    (drainFrame B config r.fuel).Answers r.start fun _ y =>
      Progress B config (r.stagings B config) (r.marks B config) r.start.1 y.1 := by
  refine .bind ((progress_drain r.fuel r.start).imp fun rest x₁ h₁ => ?_)
  refine .ite (fun _ => .bind ?_) fun _ => yields_pure h₁
  refine (keeping_saveGraph x₁).imp fun _ x₂ h₂ => yields_pure ?_
  have hall := h₁.trans h₂.progress
  rwa [List.append_nil] at hall

/-- A round that is drained and counted. -/
structure Emptied (B : Backend S σ μ) (config : Config) (r : Round σ) (s : Search) : Prop where
  completed : r.completed B config = true
  tallied : s.Tallied
  rounds : s.stats.rounds = r.start.1.stats.rounds + 1
  maxCexDepth : B.Discreet → s.stats.maxCexDepth = max r.start.1.stats.maxCexDepth
    (if config.extend then deepest (r.marks B config) else 0)
  depth : s.depth = r.start.1.depth
  inductionDepth : s.stats.inductionDepth = r.start.1.stats.inductionDepth
  framePushed : s.stats.framePushed = r.stagings B config

theorem Progress.emptied {r : Round σ} (hcompleted : r.completed B config = true)
    (hcleared : Cleared r.start.1)
    (h : Progress B config (r.stagings B config) (r.marks B config) r.start.1 s) :
    Emptied B config r { s with stats.rounds := s.stats.rounds + 1 } where
  completed := hcompleted
  tallied := by
    obtain ⟨hindex, hframe, hqueue⟩ := h.tallied hcleared.tallied
    exact ⟨hindex, hframe, hqueue⟩
  rounds := congrArg (Clock.rounds · + 1) h.clock
  maxCexDepth := h.maxCexDepth
  depth := congrArg Clock.depth h.clock
  inductionDepth := congrArg Clock.inductionDepth h.clock
  framePushed := by
    have hstart : r.start.1.staged.length = 0 := congrArg List.length hcleared.staged
    exact (h.framePushed (hcleared.framePushed.trans hstart.symm)).trans
      (by rw [h.staged, hstart, Nat.zero_add])

namespace Emptied

variable {r : Round σ}

theorem stop {outcome : Outcome} (h : Emptied B config r s) (hkept : Kept s s')
    (houtcome : deepened (.inl outcome) = false) : Rounded B config r (.inl outcome) s' where
  completed := h.completed
  tallied := hkept.tallied h.tallied
  rounds := (congrArg Clock.rounds hkept.clock).trans h.rounds
  maxCexDepth hB := hkept.maxCexDepth.trans (h.maxCexDepth hB)
  depth _ := (congrArg Clock.depth hkept.clock).trans h.depth
  inductionDepth := by
    rw [houtcome]
    exact (congrArg Clock.inductionDepth hkept.clock).trans h.inductionDepth
  framePushed _ _ := (congrArg Clock.framePushed hkept.clock).trans h.framePushed
  cleared := nofun

theorem interrupt (h : Emptied B config r s) (hadvanced : Advanced false s s') :
    Rounded B config r (.inl .interrupted) s' where
  completed := h.completed
  tallied := hadvanced.tallied h.tallied
  rounds := hadvanced.rounds.trans h.rounds
  maxCexDepth hB := hadvanced.maxCexDepth.trans (h.maxCexDepth hB)
  depth := nofun
  inductionDepth := hadvanced.inductionDepth
  framePushed _ _ := hadvanced.framePushed.trans h.framePushed
  cleared := nofun

theorem advance {rest : Nat} (h : Emptied B config r s) (hadvanced : Advanced true s s') :
    Rounded B config r (.inr rest) s' where
  completed := h.completed
  tallied := hadvanced.tallied h.tallied
  rounds := hadvanced.rounds.trans h.rounds
  maxCexDepth hB := hadvanced.maxCexDepth.trans (h.maxCexDepth hB)
  depth := nofun
  inductionDepth := hadvanced.inductionDepth
  framePushed := nofun
  cleared _ _ := ⟨hadvanced.tallied h.tallied, hadvanced.staged rfl, hadvanced.framePushed⟩

end Emptied

theorem answers_runRound (r : Round σ) (hcleared : Cleared r.start.1) :
    (runRound B config r.fuel).Answers r.start fun result y =>
      Rounded B config r result y.1 := by
  refine .bind ((progress_drainFrame r).and_run.imp fun rest x₁ h₁ => .bind (.bind ?_))
  obtain ⟨hrun, hprogress⟩ := h₁
  have hcompleted : r.completed B config = true := by
    rw [Round.completed, hrun]
    rfl
  have hemptied := hprogress.emptied hcompleted hcleared
  refine .ite (fun _ => yields_pure (hemptied.stop (.refl _) rfl)) fun _ =>
    .ite (fun _ => .bind ?_) fun _ => .bind ?_
  · exact (keeping_showInvariant _).imp fun _ x₂ h₂ => yields_pure (hemptied.stop h₂ rfl)
  · refine (answers_advance _).imp fun more x₂ h₂ => ?_
    cases more with
    | true => exact yields_pure (hemptied.advance h₂)
    | false => exact yields_pure (hemptied.interrupt h₂)

/-- What the rounds of a search leave with its outcome. -/
structure Totals (B : Backend S σ μ) (config : Config) (rs : List (Round σ)) (outcome : Outcome)
    (s s' : Search) : Prop where
  ne_nil : rs ≠ []
  tallied : s'.Tallied
  rounds : s'.stats.rounds = s.stats.rounds + rs.countP (Round.completed B config)
  framePushed : s'.stats.framePushed = (rs.getLast?.map (Round.stagings B config)).getD 0
  maxCexDepth : B.Discreet → s'.stats.maxCexDepth = max s.stats.maxCexDepth
    (if config.extend then deepest (rs.flatMap (Round.marks B config)) else 0)
  inductionDepth : s.stats.inductionDepth = (if 0 < s.stats.rounds then s.depth else 0) →
    s'.stats.inductionDepth = if outcome = .interrupted ∨ 1 < s'.stats.rounds then s'.depth else 0

namespace Rounded

variable {r : Round σ} {rs : List (Round σ)} {outcome : Outcome}

theorem last (h : Rounded B config r (.inl outcome) s') :
    Totals B config [r] outcome r.start.1 s' where
  ne_nil := List.cons_ne_nil r []
  tallied := h.tallied
  rounds := by rw [List.countP_cons_of_pos h.completed, List.countP_nil, h.rounds]
  framePushed := h.framePushed outcome rfl
  maxCexDepth hB := by
    rw [List.flatMap_cons, List.flatMap_nil, List.append_nil]
    exact h.maxCexDepth hB
  inductionDepth hs := by
    have hrounds : 1 < s'.stats.rounds ↔ 0 < r.start.1.stats.rounds := by
      rw [h.rounds]
      exact Nat.succ_lt_succ_iff
    rw [h.inductionDepth]
    by_cases houtcome : outcome = .interrupted
    · have hdeepened : deepened (.inl outcome) = true := decide_eq_true houtcome
      rw [if_pos hdeepened, if_pos (Or.inl houtcome)]
    · have hnot : deepened (.inl outcome) = false := decide_eq_false houtcome
      rw [if_neg (Bool.eq_false_iff.mp hnot), hs, h.depth hnot]
      simp only [houtcome, false_or, hrounds]

theorem next {rest : Nat} (h : Rounded B config r (.inr rest) s₁)
    (hrest : Totals B config rs outcome s₁ s') :
    Totals B config (r :: rs) outcome r.start.1 s' where
  ne_nil := List.cons_ne_nil r rs
  tallied := hrest.tallied
  rounds := by
    rw [hrest.rounds, h.rounds, List.countP_cons_of_pos h.completed]
    omega
  framePushed := by
    rw [hrest.framePushed, List.getLast?_cons, List.getLast?_eq_getLast_of_ne_nil hrest.ne_nil]
    rfl
  maxCexDepth hB := by
    rw [hrest.maxCexDepth hB, h.maxCexDepth hB, List.flatMap_cons, deepest_append, Nat.max_assoc]
    cases config.extend <;> rfl
  inductionDepth _ := hrest.inductionDepth (by
    rw [h.inductionDepth, h.rounds, if_pos (Nat.succ_pos _)]
    rfl)

end Rounded

theorem answers_rounds : ∀ (bound fuel : Nat) (x : Search × σ), Cleared x.1 →
    (rounds B config bound fuel).Answers x fun outcome y =>
      Totals B config (roundsFrom B config bound fuel x) outcome x.1 y.1
  | 0, _, _, _ => yields_throw trivial
  | bound + 1, fuel, x, hcleared => by
      rw [Answers, Yields, run_rounds_succ, roundsFrom]
      have hround : (runRound B config fuel).Answers x fun result y =>
          Rounded B config ⟨fuel, x⟩ result y.1 := answers_runRound ⟨fuel, x⟩ hcleared
      cases hrun : runRound B config fuel x with
      | error fault y => trivial
      | ok result y =>
          have h := hround.of_ok hrun
          cases result with
          | inl outcome => exact h.last
          | inr rest =>
              exact Yields.imp (answers_rounds bound rest y (h.cleared rest rfl)) fun _ _ hz =>
                h.next hz

/-! Runs. -/

/-- What a query leaves, told from its rounds. -/
structure Figured (B : Backend S σ μ) (config : Config) (rs : List (Round σ)) (outcome : Outcome)
    (s : Search) : Prop where
  tallied : s.Tallied
  rounds : s.stats.rounds = rs.countP (Round.completed B config)
  framePushed : s.stats.framePushed = (rs.getLast?.map (Round.stagings B config)).getD 0
  maxCexDepth : B.Discreet → s.stats.maxCexDepth =
    if config.extend then deepest (rs.flatMap (Round.marks B config)) else 0
  inductionDepth : s.stats.inductionDepth =
    if outcome = .interrupted ∨ 1 < s.stats.rounds then s.depth else 0

theorem Figured.paced {rs : List (Round σ)} {outcome : Outcome}
    (h : Figured B config rs outcome s) (h' : Paced s s')
    (hmax : s'.stats.maxCexDepth = s.stats.maxCexDepth) : Figured B config rs outcome s' where
  tallied := h'.tallied h.tallied
  rounds := (congrArg Clock.rounds h'.clock).trans h.rounds
  framePushed := (congrArg Clock.framePushed h'.clock).trans h.framePushed
  maxCexDepth hB := hmax.trans (h.maxCexDepth hB)
  inductionDepth := by
    have hinduction : s'.stats.inductionDepth = s.stats.inductionDepth :=
      congrArg Clock.inductionDepth h'.clock
    have hrounds : s'.stats.rounds = s.stats.rounds := congrArg Clock.rounds h'.clock
    have hdepth : s'.depth = s.depth := congrArg Clock.depth h'.clock
    rw [hinduction, hrounds, hdepth]
    exact h.inductionDepth

/-- How the loop begins: no figure has been touched but for the tallies. -/
structure Unfigured (s : Search) : Prop extends Cleared s where
  rounds : s.stats.rounds = 0
  inductionDepth : s.stats.inductionDepth = 0
  maxCexDepth : s.stats.maxCexDepth = 0

theorem Unfigured.figured (hs : Unfigured s) :
    Figured B config [] .invalid { s with outcome := some .invalid } where
  tallied := ⟨hs.tallied.frameIndex, hs.tallied.frameSize, hs.tallied.queueSize⟩
  rounds := hs.rounds
  framePushed := hs.framePushed
  maxCexDepth _ := hs.maxCexDepth.trans (ite_self 0).symm
  inductionDepth := by
    rw [hs.inductionDepth, hs.rounds, if_neg (by decide)]

theorem Totals.figured {rs : List (Round σ)} {outcome : Outcome} (hs : Unfigured s)
    (h : Totals B config rs outcome s s') :
    Figured B config rs outcome { s' with staged := [], outcome := some outcome } where
  tallied := ⟨h.tallied.frameIndex, h.tallied.frameSize, h.tallied.queueSize⟩
  rounds := h.rounds.trans (by rw [hs.rounds, Nat.zero_add])
  framePushed := h.framePushed
  maxCexDepth hB := (h.maxCexDepth hB).trans (by rw [hs.maxCexDepth, Nat.zero_max])
  inductionDepth := h.inductionDepth (by
    rw [hs.inductionDepth, hs.rounds, if_neg (Nat.lt_irrefl 0)])

theorem answers_loop (fuel : Nat) (x : Search × σ) (hx : Unfigured x.1) :
    (loop B config fuel).Answers x fun outcome y =>
      Figured B config (roundsFrom B config fuel fuel ((announce B).final x)) outcome y.1 := by
  refine .bind ?_
  change Answers _ ((announce B).final x) _
  have hstart : Cleared ((announce B).final x).1 := hx.toCleared
  refine .bind ((answers_rounds fuel fuel _ hstart).attempt.imp fun result x₁ h₁ => .bind ?_)
  rcases h₁ with ⟨outcome, rfl, htotals⟩ | ⟨e, rfl, _⟩
  · have hfigured := htotals.figured hx
    exact hfigured
  · trivial

theorem answers_enter (fuel : Nat) (p : Formula) (w : σ) :
    (enter B fuel p).Answers (.blank, w) fun _ y => Unfigured y.1 := by
  refine .bind (answers_act fun _ _ => .bind (answers_act fun _ _ => .bind ?_))
  have hrest : Keeping (clearFrame B 1 >>= fun _ => addProperty B fuel p) :=
    (keeping_clearFrame 1).bind fun _ => keeping_addProperty fuel p
  refine (hrest _).imp fun _ y hy => ?_
  exact ⟨⟨hy.tallied ⟨rfl, rfl, rfl⟩, congrArg Clock.staged hy.clock,
    congrArg Clock.framePushed hy.clock⟩, congrArg Clock.rounds hy.clock,
    congrArg Clock.inductionDepth hy.clock, hy.maxCexDepth⟩

theorem answers_run (fuel : Nat) (p : Formula) (w : σ) :
    (run B config fuel p).Answers (.blank, w) fun outcome y =>
      Figured B config
        (match enter B fuel p (.blank, w) with
          | .ok true x => roundsFrom B config fuel fuel ((announce B).final x)
          | _ => []) outcome y.1 := by
  rw [run_eq]
  refine .bind ((answers_enter fuel p w).and_run.imp fun holds x h => ?_)
  obtain ⟨hrun, hx⟩ := h
  rw [hrun]
  cases holds with
  | true => exact answers_loop fuel x hx
  | false => exact hx.figured

end Search

namespace Engine

def queued (e : Engine σ) : Nat := (e.search.map (·.agenda.size)).getD 0

/-- The statistics of an engine against its state and against the rounds of its last query. -/
structure Accurate (B : Backend S σ μ) (config : Config) (rs : List (Search.Round σ))
    (outcome : Outcome) (e : Engine σ) : Prop where
  frameIndex : e.stats.frameIndex = e.frameIndex
  frameSize : e.stats.frameSize = e.frame.length
  queueSize : e.stats.queueSize = e.queued
  rounds : e.stats.rounds = rs.countP (Search.Round.completed B config)
  framePushed : e.stats.framePushed = (rs.getLast?.map (Search.Round.stagings B config)).getD 0
  maxCexDepth : B.Discreet → e.stats.maxCexDepth =
    if config.extend then Search.deepest (rs.flatMap (Search.Round.marks B config)) else 0
  inductionDepth : e.stats.inductionDepth =
    if outcome = .interrupted ∨ 1 < e.stats.rounds then e.inductionDepth else 0

variable {fuel : Nat} {system : S} {p : Formula} {e e₁ e' : Engine σ} {outcome : Outcome}
  {rs : List (Search.Round σ)}

/-- The engine has a search, and its figures are as they should be. -/
def Figured (B : Backend S σ μ) (config : Config) (rs : List (Search.Round σ)) (outcome : Outcome)
    (e : Engine σ) : Prop :=
  ∃ s, e.search = some s ∧ Search.Figured B config rs outcome s

theorem Figured.accurate (h : Figured B config rs outcome e) : Accurate B config rs outcome e := by
  obtain ⟨search, world⟩ := e
  obtain ⟨s, rfl, hs⟩ := h
  have hsize : s.stats.frameSize = s.frame.toList.length :=
    hs.tallied.frameSize.trans (FormulaMap.length_keys s.frame.members).symm
  exact ⟨hs.tallied.frameIndex, hsize, hs.tallied.queueSize, hs.rounds, hs.framePushed,
    hs.maxCexDepth, hs.inductionDepth⟩

theorem answers_query : (query B config fuel system p).Answers e fun outcome e' =>
    Figured B config (roundsOf B config fuel system p e) outcome e' := by
  refine .bind (.bind (.within ?_))
  rw [Yields]
  cases hload : B.load system (reset B e).world with
  | error fault w => trivial
  | ok _ w =>
      rw [roundsOf, hload]
      exact .within ((Search.answers_run fuel p w).imp fun _ y hy => ⟨y.1, rfl, hy⟩)

theorem Figured.relocate {r : Relocation} (h : Figured B config rs outcome e) :
    (relocate B r).Answers e fun _ e' => Figured B config rs outcome e' := by
  obtain ⟨search, world⟩ := e
  obtain ⟨s, rfl, hs⟩ := h
  refine .bind ?_
  exact .within ((Search.answers_relocate r (s, world)).imp fun _ y hy =>
    ⟨y.1, rfl, hs.paced hy.1 hy.2⟩)

theorem Figured.relocates {relocations : List Relocation} (h : Figured B config rs outcome e) :
    Answers (relocations.forM (Engine.relocate B)) e fun _ e' =>
      Figured B config rs outcome e' := by
  induction relocations generalizing e with
  | nil => exact yields_pure h
  | cons r relocations ih => exact .bind (h.relocate.imp fun _ _ h₁ => ih h₁)

theorem stats_accurate {relocations : List Relocation}
    (hquery : query B config fuel system p e = .ok outcome e₁)
    (hrelocate : relocations.forM (relocate B) e₁ = .ok () e') :
    Accurate B config (roundsOf B config fuel system p e) outcome e' :=
  Figured.accurate ((Figured.relocates (answers_query.of_ok hquery)).of_ok hrelocate)

/-- The second round finds a counterexample. The sweep that follows takes a formula from the frame
and from the agenda. -/
theorem overtaken_accurate : ∃ e₁ e',
    query Player.backend {} 40 () ⟨0⟩ overtaken = .ok .invalid e₁ ∧
    [Relocation.collect {} ⟨3⟩].forM (relocate Player.backend) e₁ = .ok () e' ∧
    Accurate Player.backend {} (roundsOf Player.backend {} 40 () ⟨0⟩ overtaken) .invalid e' := by
  obtain ⟨e₁, hquery⟩ := eq_ok_of_answer? (a := .invalid)
    (r := query Player.backend {} 40 () ⟨0⟩ overtaken) (by decide +kernel)
  have hfinal : (query Player.backend {} 40 () ⟨0⟩).final overtaken = e₁ := by
    rw [Action.final, hquery]
  have hanswer : answer? ([Relocation.collect {} ⟨3⟩].forM (relocate Player.backend)
      ((query Player.backend {} 40 () ⟨0⟩).final overtaken)) = some () := by
    decide +kernel
  obtain ⟨e', hrelocate⟩ := eq_ok_of_answer? hanswer
  rw [hfinal] at hrelocate
  exact ⟨e₁, e', hquery, hrelocate, stats_accurate hquery hrelocate⟩

def proposed : Engine Player where
  world := { sentences.terms := #[.atom "P"] }

/-- A search that ends with its first round has an induction depth, which no figure tells. -/
theorem proposed_uncounted : ∃ e',
    query Player.backend {} 20 () ⟨0⟩ proposed = .ok .valid e' ∧
      e'.inductionDepth = 1 ∧ e'.stats.inductionDepth = 0 := by
  obtain ⟨e', hquery⟩ := eq_ok_of_answer? (a := .valid)
    (r := query Player.backend {} 20 () ⟨0⟩ proposed) (by decide +kernel)
  have hfinal : (query Player.backend {} 20 () ⟨0⟩).final proposed = e' := by
    rw [Action.final, hquery]
  refine ⟨e', hquery, ?_⟩
  rw [← hfinal]
  decide +kernel

end Engine

end Invariance
