import Invariance.Proofs.Search.Courses
import Invariance.Proofs.Transcripts.Tiles

/-!
What has nothing to do with windows: all that the search does apart from the reachability checks and
from what it does between two rounds.
-/

namespace Invariance.Search

open Course

variable {S σ μ α β : Type} {B : Backend S σ μ} {config : Config} {f : Formula} {ob : Obligation}

def Calm {act : SearchM (σ × List (Note μ)) α} (c : Course act) : Prop := c.Stays Still

section Rules

variable {act : SearchM (σ × List (Note μ)) α} {next : α → SearchM (σ × List (Note μ)) β}

theorem Calm.bind {c : Course act} {d : ∀ a, Course (next a)} (h : Calm c)
    (hd : ∀ a, Calm (d a)) : Calm (c.bind d) :=
  Course.Stays.bind (R := Still) (fun h h' => h.trans h') h hd

theorem calm_branch {c : Prop} [Decidable c] {other : SearchM (σ × List (Note μ)) α}
    {yes : Course act} {no : Course other} (h : Calm yes) (h' : Calm no) :
    Calm (.branch (c := c) yes no) :=
  stays_branch h h'

theorem calm_unless {c : Prop} [Decidable c] {other : SearchM (σ × List (Note μ)) β}
    {rest : Course act} (h : Calm rest) (hother : Calm (.move other)) :
    Calm (unlessCourse (c := c) (b := other) rest) :=
  calm_branch h (.bind hother fun _ => h)

theorem calm_when {c : Prop} [Decidable c] {other : SearchM (σ × List (Note μ)) β}
    {rest : Course act} (h : Calm rest) (hother : Calm (.move other)) :
    Calm (whenCourse (c := c) (b := other) rest) :=
  calm_branch (.bind hother fun _ => h) h

theorem calm_of_same (h : ∀ t, act.final t = t) : Calm (.move act) :=
  stays_move fun t => (h t).symm ▸ .refl t

theorem calm_forM {each : α → SearchM (σ × List (Note μ)) PUnit} {c : ∀ a, Course (each a)}
    (h : ∀ a, Calm (c a)) : ∀ l, Calm (forMCourse c l)
  | [] => calm_of_same fun _ => rfl
  | a :: l => .bind (h a) fun _ => calm_forM h l

theorem calm_allM {each : α → SearchM (σ × List (Note μ)) Bool} {c : ∀ a, Course (each a)}
    (h : ∀ a, Calm (c a)) : ∀ l, Calm (allMCourse c l)
  | [] => calm_of_same fun _ => rfl
  | a :: l => .bind (h a) fun
      | true => calm_allM h l
      | false => calm_of_same fun _ => rfl

theorem calm_filterM {each : α → SearchM (σ × List (Note μ)) Bool} {c : ∀ a, Course (each a)}
    (h : ∀ a, Calm (c a)) (l : List α) : Calm (filterMCourse c l) := by
  have key : ∀ l kept, Calm (filterMCourse.go c l kept) := by
    intro l
    induction l with
    | nil => exact fun kept => calm_of_same fun _ => rfl
    | cons a l ih => exact fun kept => .bind (h a) fun _ => ih _
  exact .bind (key l []) fun _ => calm_of_same fun _ => rfl

end Rules

/-! Moves. -/

theorem calm_state : Calm (.move (state : SearchM (σ × List (Note μ)) Search)) :=
  calm_of_same fun _ => rfl

theorem calm_ask {m : σ × List (Note μ) → α} : Calm (.move (ask m)) := calm_of_same fun _ => rfl

theorem calm_pure {a : α} : Calm (.move (pure a : SearchM (σ × List (Note μ)) α)) :=
  calm_of_same fun _ => rfl

theorem calm_throw {fault : Fault} :
    Calm (.move (throw fault : SearchM (σ × List (Note μ)) α)) :=
  calm_of_same fun _ => rfl

theorem calm_ofExcept {e : Except Violation α} :
    Calm (.move (Action.ofExcept e : SearchM (σ × List (Note μ)) α)) :=
  calm_of_same fun _ => by cases e <;> rfl

theorem calm_ofAttempt {r : Except CheckError α} :
    Calm (.move (Action.ofAttempt r : SearchM (σ × List (Note μ)) α)) :=
  calm_of_same fun _ => by cases r <;> rfl

theorem calm_change {m : Search → Search}
    (h : ∀ s, (m s).index = s.index ∧ (m s).depth = s.depth ∧
      (m s).stats.rounds = s.stats.rounds) :
    Calm (.move (change m : SearchM (σ × List (Note μ)) Unit)) :=
  stays_move fun t => ⟨(h t.1).1, (h t.1).2.1, (h t.1).2.2, .refl _⟩

theorem calm_update {m : σ → σ} :
    Calm (.move (update fun w : σ × List (Note μ) => (m w.1, w.2))) :=
  stays_move fun _ => ⟨rfl, rfl, rfl, .refl _⟩

theorem calm_report {level : Level} {message : String}
    {fields : Search → (Formula → String) → List (String × Field)} :
    Calm (.move (report B.noted level message fields)) :=
  stays_move fun _ => ⟨rfl, rfl, rfl, .refl _⟩

theorem final_noting (note : Except Fault α → σ → Note μ) (action : Action σ α) (w : σ)
    (ℓ : List (Note μ)) : ∃ answer w', Action.final (noting id note action) (w, ℓ) =
      (w', note answer w' :: ℓ) := by
  rw [Action.final, noting]
  cases action w with
  | ok a w' => exact ⟨_, _, rfl⟩
  | error fault w' => exact ⟨_, _, rfl⟩

theorem calm_act {note : Except Fault α → σ → Note μ} {action : Action σ α}
    (h : ∀ answer w, (note answer w).Quiet) : Calm (.move (act (noting id note action))) :=
  stays_move fun t => by
    obtain ⟨s, w, ℓ⟩ := t
    obtain ⟨answer, w', heq⟩ := final_noting note action w ℓ
    rw [act, Action.final_within, heq]
    exact ⟨rfl, rfl, rfl, .note ℓ (h answer w')⟩

theorem calm_step {note : Except Fault α → σ → Note μ} {action : Step σ α}
    (h : ∀ answer w, (note answer w).Quiet) :
    Calm (.move (step (noting .violation note action))) :=
  stays_move fun t => by
    obtain ⟨s, w, ℓ⟩ := t
    rw [step, act, Action.final_within, Action.final, Action.ofStep, noting]
    cases action w with
    | ok a w' => exact ⟨rfl, rfl, rfl, .note ℓ (h _ w')⟩
    | error v w' => exact ⟨rfl, rfl, rfl, .note ℓ (h _ w')⟩

theorem calm_negate : Calm (.move (negate B.noted f)) := calm_step fun _ _ => ⟨rfl, rfl⟩

theorem calm_countFrame : Calm (.move (countFrame : SearchM (σ × List (Note μ)) Unit)) :=
  calm_change fun _ => ⟨rfl, rfl, rfl⟩

theorem calm_checkedAdd {a b : Nat} : Calm (.move (checkedAdd B.noted a b)) := calm_ofExcept

theorem calm_addToFrame (role : Role) : Calm (addToFrameCourse B.noted f role) := by
  let R (x y : Frame × (σ × List (Note μ))) : Prop := Quietly x.2.2 y.2.2
  refine .bind (stays_within (R := R) ?_ fun t x h => ⟨rfl, rfl, rfl, h⟩) fun _ => calm_countFrame
  have hbind : ∀ {x y z : Frame × (σ × List (Note μ))}, R x y → R y z → R x z :=
    fun h h' => h.trans h'
  refine Stays.bind (R := R) hbind (stays_move fun _ => .refl _) fun (frame, _) => ?_
  refine Stays.bind (R := R) hbind (stays_move fun x => ?_) fun frame' => ?_
  · cases frame.enter f role <;> exact .refl _
  refine Stays.bind (R := R) hbind (stays_move fun _ => .refl _) fun _ => ?_
  refine stays_within (R := fun w w' => Quietly w.2 w'.2) (stays_move fun w => ?_) fun _ _ h => h
  obtain ⟨answer, w', heq⟩ := final_noting (fun answer _ => .registered f role answer)
    (B.oracle.register f role) w.1 w.2
  change Quietly w.2 (Action.final (noting id _ _) (w.1, w.2)).2
  rw [heq]
  exact .note _ ⟨rfl, rfl⟩

theorem calm_enqueue (ob : Obligation) : Calm (enqueueCourse B.noted ob) :=
  .bind calm_negate fun _ => .bind calm_state fun _ => calm_unless
    (.bind calm_ofExcept fun _ => calm_change fun _ => ⟨rfl, rfl, rfl⟩) calm_throw

theorem calm_pop : Calm (popCourse (σ := σ × List (Note μ))) :=
  .bind calm_state fun _ => .bind calm_ofExcept fun _ =>
    .bind (calm_change fun _ => ⟨rfl, rfl, rfl⟩) fun _ => calm_pure

theorem calm_bump (counter : Formula) : Calm (bumpCourse (σ := σ × List (Note μ)) counter) :=
  .bind calm_state fun _ => .bind calm_ofExcept fun _ => calm_change fun _ => ⟨rfl, rfl, rfl⟩

theorem calm_checkRefutations : Calm (checkRefutationsCourse B.noted) :=
  .bind calm_state fun _ => .bind calm_ofExcept fun _ => calm_forM (fun _ =>
    .bind calm_negate fun _ => .bind calm_state fun _ => calm_branch calm_pure calm_throw) _

theorem calm_markInvalid (k : Nat) :
    Calm (markInvalidCourse (σ := σ × List (Note μ)) f k) :=
  .bind calm_state fun _ => calm_unless
    (.bind calm_ofExcept fun _ => calm_change fun _ => ⟨rfl, rfl, rfl⟩) calm_throw

/-! Counterexamples. -/

theorem calm_assertFalseAt (k : Nat) : Calm (assertFalseAtCourse B.noted f k) :=
  .bind calm_update fun _ => .bind calm_negate fun _ => .bind (calm_step fun _ _ => ⟨rfl, rfl⟩)
    fun _ => calm_act fun _ _ => ⟨rfl, rfl⟩

theorem calm_assertTrace : ∀ (k : Nat) (trace : List Formula),
    Calm (assertTraceCourse B.noted k trace)
  | _, [] => calm_pure
  | _, _ :: _ => .bind (calm_step fun _ _ => ⟨rfl, rfl⟩) fun _ =>
      .bind (calm_act fun _ _ => ⟨rfl, rfl⟩) fun _ => calm_assertTrace _ _

theorem calm_recordModel : Calm (recordModelCourse B.noted) :=
  .bind (calm_act fun _ _ => ⟨rfl, rfl⟩) fun _ => calm_update

theorem calm_climb : ∀ (bound : Nat) (f : Formula) (k : Nat),
    Calm (climbCourse B.noted bound f k)
  | 0, _, _ => calm_throw
  | bound + 1, f, k =>
      .bind (calm_change fun _ => ⟨rfl, rfl, rfl⟩) fun _ => .bind calm_negate fun _ =>
        .bind (calm_bump _) fun _ => .bind calm_state fun s => by
          cases s.lineage.origin? f with
          | none => exact calm_branch (.bind calm_ask fun _ => calm_report) calm_pure
          | some origin =>
              refine .bind calm_checkedAdd fun _ => calm_branch calm_pure ?_
              refine .bind (calm_assertFalseAt _) fun _ =>
                .bind (calm_act fun _ _ => ⟨rfl, rfl⟩) fun _ => calm_branch ?_ calm_report
              exact .bind (calm_markInvalid _) fun _ => .bind calm_recordModel fun _ =>
                .bind calm_report fun _ => calm_climb bound _ _

theorem calm_lastFrame (trace : List Formula) : Calm (lastFrameCourse B.noted trace) :=
  .bind calm_state fun _ => calm_checkedAdd

theorem calm_extendInScope (trace : List Formula) :
    Calm (extendInScopeCourse B.noted config f trace) :=
  .bind (calm_assertTrace _ _) fun _ => .bind (calm_lastFrame trace) fun _ =>
    .bind (calm_assertFalseAt _) fun _ => .bind (calm_act fun _ _ => ⟨rfl, rfl⟩) fun _ =>
      calm_unless (.bind calm_recordModel fun _ =>
        calm_branch (.bind calm_state fun _ => calm_climb _ _ _) calm_pure) calm_throw

theorem calm_extendFailure : Calm (extendFailureCourse B.noted config f) :=
  .bind calm_ask fun trace => calm_when (.bind calm_state fun _ =>
    .bind (calm_lastFrame trace) fun _ => calm_unless (.bind calm_checkedAdd fun _ =>
      .bind calm_update fun _ => .bind calm_update fun _ =>
        .bind (calm_extendInScope trace).attempt fun _ =>
          .bind (calm_step fun _ _ => ⟨rfl, rfl⟩) fun _ => calm_ofAttempt) calm_throw) calm_throw

theorem calm_failInduction : Calm (failInductionCourse B.noted config f) :=
  .bind calm_ask fun trace => calm_when (.bind (calm_lastFrame trace) fun _ =>
    .bind calm_report fun _ => .bind (calm_markInvalid _) fun _ =>
      .bind (calm_change fun _ => ⟨rfl, rfl, rfl⟩) fun _ => calm_extendFailure) calm_throw

/-! Obligations. -/

theorem calm_carry (ob : Obligation) : Calm (carryCourse B.noted ob f) :=
  .bind (calm_change fun _ => ⟨rfl, rfl, rfl⟩) fun _ =>
    .bind (calm_act fun _ _ => ⟨rfl, rfl⟩) fun _ => .bind (calm_act fun _ _ => ⟨rfl, rfl⟩)
      fun _ => .bind (calm_change fun _ => ⟨rfl, rfl, rfl⟩) fun _ => calm_pure

theorem calm_weaken (ob : Obligation) : Calm (weakenCourse B.noted ob f) :=
  .bind (calm_act fun _ _ => ⟨rfl, rfl⟩) fun _ =>
    .bind (calm_change fun _ => ⟨rfl, rfl, rfl⟩) fun _ =>
      .bind (calm_step fun _ _ => ⟨rfl, rfl⟩) fun _ =>
        .bind (calm_change fun _ => ⟨rfl, rfl, rfl⟩) fun _ => .bind calm_countFrame fun _ =>
          .bind calm_checkRefutations fun _ => .bind calm_report fun _ => calm_pure

theorem calm_stage (ob : Obligation) : Calm (stageCourse B.noted ob f) :=
  .bind calm_report fun _ => .bind (calm_act fun _ _ => ⟨rfl, rfl⟩) fun
    | .unsat => calm_carry ob
    | .unknown => calm_throw
    | .sat _ _ => .bind (calm_weaken ob) fun _ => calm_carry ob

theorem calm_refine {counter : Formula} : Calm (refineCourse B.noted ob f counter) :=
  .bind calm_negate fun _ => .bind calm_report fun _ => .bind calm_state fun _ =>
    .bind (calm_act fun _ _ => ⟨rfl, rfl⟩) fun _ => .bind calm_report fun _ =>
      .bind (calm_addToFrame .first) fun _ => .bind (calm_change fun _ => ⟨rfl, rfl, rfl⟩) fun _ =>
        .bind calm_countFrame fun _ => .bind calm_state fun _ =>
          .bind (calm_change fun _ => ⟨rfl, rfl, rfl⟩) fun _ => .bind calm_checkedAdd fun _ =>
            .bind calm_report fun _ => .bind (calm_enqueue _) fun _ => calm_pure

/-! Rounds. -/

theorem calm_saveGraph : Calm (saveGraphCourse B.noted) :=
  .bind calm_state fun _ => .bind (calm_act fun _ _ => ⟨rfl, rfl⟩) fun _ => calm_report

theorem calm_showInvariant : Calm (showInvariantCourse B.noted config) :=
  calm_branch (.bind calm_state fun _ => calm_forM (fun _ => calm_report) _) calm_pure

theorem calm_restore : Calm (restoreCourse B.noted ob) :=
  .bind calm_negate fun _ => .bind (calm_addToFrame .first) fun _ =>
    .bind (calm_addToFrame .intermediate) fun _ => calm_enqueue ob

theorem calm_relocate (r : Relocation) : Calm (relocateCourse B.noted r) :=
  .bind calm_state fun _ => calm_unless (.bind (calm_change fun _ => ⟨rfl, rfl, rfl⟩) fun _ =>
    .bind calm_state fun _ => .bind calm_ofExcept fun _ => .bind (calm_filterM (fun _ =>
      .bind calm_state fun _ => .bind calm_negate fun _ => calm_pure) _) fun _ =>
        .bind calm_ofExcept fun _ => .bind (calm_change fun _ => ⟨rfl, rfl, rfl⟩) fun _ =>
          .bind calm_checkRefutations fun _ =>
            .bind (calm_change fun _ => ⟨rfl, rfl, rfl⟩) fun _ => .bind calm_update fun _ =>
              .bind calm_update fun _ => .bind calm_countFrame fun _ =>
                .bind (calm_change fun _ => ⟨rfl, rfl, rfl⟩) fun _ => calm_report) calm_throw

theorem calm_addProperty : ∀ (fuel : Nat) (p : Formula),
    Calm (addPropertyCourse B.noted fuel p)
  | 0, _ => calm_throw
  | fuel + 1, p => .bind calm_ask fun conjuncts => by
      cases conjuncts with
      | some conjuncts => exact calm_allM (calm_addProperty fuel) conjuncts
      | none =>
          refine .bind calm_negate fun negation =>
            .bind (calm_act fun _ _ => ⟨rfl, rfl⟩) fun answer => ?_
          have hend : Calm (addPropertyCourse.addPropertyEndCourse (σ := σ × List (Note μ))
              negation p) :=
            .bind (calm_bump _) fun _ => .bind (calm_change fun _ => ⟨rfl, rfl, rfl⟩) fun _ =>
              calm_pure
          match answer with
          | .unsat =>
              exact .bind calm_state fun _ => calm_branch hend (.bind (calm_addToFrame .first)
                fun _ => .bind (calm_addToFrame .intermediate) fun _ =>
                  .bind (calm_enqueue _) fun _ => hend)
          | .unknown => exact calm_throw
          | .sat none => exact calm_throw
          | .sat (some _) =>
              exact .bind calm_report fun _ => .bind calm_update fun _ =>
                .bind (calm_change fun _ => ⟨rfl, rfl, rfl⟩) fun _ => calm_pure

end Invariance.Search
