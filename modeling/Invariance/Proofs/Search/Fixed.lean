import Invariance.Proofs.Search.Courses

/-!
What a search leaves alone, whatever its backend does. A view of the search that does not see the
frame, the agenda, the clock, the figures and the marks shows the same along every course that
neither stages nor registers anything; what else it must not see is said where it matters.
-/

namespace Invariance.Search

open Course

variable {S σ μ α β δ : Type} {B : Backend S σ μ} {config : Config} {v : Search → δ} {f : Formula}

def Blind (v : Search → δ) : Prop := ∀ s frame agenda index depth stats invalid propertyInvalid,
  v { s with
    frame, agenda, index, depth, stats
    lineage := { s.lineage with invalid, propertyInvalid } } = v s

/-- The view shows the same in every state of the course. -/
def Fixed (v : Search → δ) {act : SearchM σ α} (c : Course act) : Prop :=
  c.Stays fun x y => v y.1 = v x.1

theorem Fixed.final {act : SearchM σ α} {c : Course act} (h : Fixed v c) (x : Search × σ) :
    v (act.final x).1 = v x.1 :=
  h x _ (c.final_mem x)

section Rules

variable {act other : SearchM σ α} {next : α → SearchM σ β}

theorem Fixed.bind {c : Course act} {d : ∀ a, Course (next a)} (h : Fixed v c)
    (hd : ∀ a, Fixed v (d a)) : Fixed v (c.bind d) :=
  Stays.bind (R := fun x y : Search × σ => v y.1 = v x.1) (fun h h' => h'.trans h) h hd

theorem fixed_branch {c : Prop} [Decidable c] {yes : Course act} {no : Course other}
    (h : Fixed v yes) (h' : Fixed v no) : Fixed v (.branch (c := c) yes no) :=
  stays_branch h h'

theorem fixed_unless {c : Prop} [Decidable c] {b : SearchM σ β} {rest : Course act}
    (h : Fixed v rest) (hb : Fixed v (.move b)) :
    Fixed v (unlessCourse (c := c) (b := b) rest) :=
  fixed_branch h (.bind hb fun _ => h)

theorem fixed_when {c : Prop} [Decidable c] {b : SearchM σ β} {rest : Course act}
    (h : Fixed v rest) (hb : Fixed v (.move b)) : Fixed v (whenCourse (c := c) (b := b) rest) :=
  fixed_branch (.bind hb fun _ => h) h

theorem fixed_forM {each : α → SearchM σ PUnit} {c : ∀ a, Course (each a)}
    (h : ∀ a, Fixed v (c a)) : ∀ l, Fixed v (forMCourse c l)
  | [] => stays_move fun _ => rfl
  | a :: l => .bind (h a) fun _ => fixed_forM h l

theorem fixed_allM {each : α → SearchM σ Bool} {c : ∀ a, Course (each a)}
    (h : ∀ a, Fixed v (c a)) : ∀ l, Fixed v (allMCourse c l)
  | [] => stays_move fun _ => rfl
  | a :: l => .bind (h a) fun
      | true => fixed_allM h l
      | false => stays_move fun _ => rfl

theorem fixed_filterM {each : α → SearchM σ Bool} {c : ∀ a, Course (each a)}
    (h : ∀ a, Fixed v (c a)) (l : List α) : Fixed v (filterMCourse c l) := by
  have key : ∀ l kept, Fixed v (filterMCourse.go c l kept) := by
    intro l
    induction l with
    | nil => exact fun kept => stays_move fun _ => rfl
    | cons a l ih => exact fun kept => .bind (h a) fun _ => ih _
  exact .bind (key l []) fun _ => stays_move fun _ => rfl

end Rules

/-! Moves. -/

theorem fixed_ofExcept (x : Except Violation α) :
    Fixed v (.move (Action.ofExcept x : SearchM σ α)) :=
  stays_move fun _ => by cases x <;> rfl

theorem fixed_ofAttempt (x : Except CheckError α) :
    Fixed v (.move (Action.ofAttempt x : SearchM σ α)) :=
  stays_move fun _ => by cases x <;> rfl

theorem fixed_throw (fault : Fault) : Fixed v (.move (throw fault : SearchM σ α)) :=
  stays_move fun _ => rfl

theorem fixed_pure (a : α) : Fixed v (.move (pure a : SearchM σ α)) := stays_move fun _ => rfl

theorem fixed_state : Fixed v (.move (state : SearchM σ Search)) := stays_move fun _ => rfl

theorem fixed_ask (m : σ → α) : Fixed v (.move (ask m)) := stays_move fun _ => rfl

theorem fixed_update (m : σ → σ) : Fixed v (.move (update m)) := stays_move fun _ => rfl

theorem fixed_change {m : Search → Search} (h : ∀ s, v (m s) = v s) :
    Fixed v (.move (change m : SearchM σ Unit)) :=
  stays_move fun x => h x.1

theorem fixed_act (action : Action σ α) : Fixed v (.move (act action)) :=
  stays_move fun x => by
    rw [act, Action.final_within]

theorem fixed_report (level : Level) (message : String)
    (fields : Search → (Formula → String) → List (String × Field)) :
    Fixed v (.move (report B level message fields)) := stays_move fun _ => rfl

theorem fixed_negate (f : Formula) : Fixed v (.move (negate B f)) := fixed_act _

theorem fixed_checkedAdd (a b : Nat) : Fixed v (.move (checkedAdd B a b)) := fixed_ofExcept _

section Frame

variable (hframe : ∀ s frame stats, v { s with frame, stats } = v s)
include hframe

theorem fixed_countFrame : Fixed v (.move (countFrame : SearchM σ Unit)) :=
  fixed_change fun s => hframe s s.frame _

theorem fixed_onFrame {action : Action (Frame × σ) Unit} (c : Course action) :
    Fixed v (.bind (.within (fun s => (s.1.frame, s.2))
      (fun t s => ({ s.1 with frame := t.1 }, t.2)) c) fun _ => .move countFrame) := by
  refine .bind ?_ fun _ => fixed_countFrame hframe
  exact stays_within (R := fun _ _ => True) (fun _ _ _ => trivial) fun x y _ =>
    hframe x.1 y.1 x.1.stats

theorem fixed_addToFrame (f : Formula) (role : Role) : Fixed v (addToFrameCourse B f role) :=
  fixed_onFrame hframe _

theorem fixed_clearFrame (depth : Nat) : Fixed v (clearFrameCourse B depth) :=
  fixed_onFrame hframe _

end Frame

variable (hv : Blind v)
include hv

theorem Blind.frame (s : Search) (frame : Frame) (stats : Statistics) :
    v { s with frame, stats } = v s :=
  hv s frame s.agenda s.index s.depth stats s.lineage.invalid s.lineage.propertyInvalid

theorem Blind.agenda (s : Search) (agenda : Agenda) (stats : Statistics) :
    v { s with agenda, stats } = v s :=
  hv s s.frame agenda s.index s.depth stats s.lineage.invalid s.lineage.propertyInvalid

theorem fixed_enqueue (ob : Obligation) : Fixed v (enqueueCourse B ob) :=
  .bind (fixed_negate _) fun _ => .bind fixed_state fun _ => fixed_unless
    (.bind (fixed_ofExcept _) fun _ => fixed_change fun _ => hv.agenda ..) (fixed_throw _)

theorem fixed_pop : Fixed v (popCourse (σ := σ)) :=
  .bind fixed_state fun _ => .bind (fixed_ofExcept _) fun _ =>
    .bind (fixed_change fun _ => hv.agenda ..) fun _ => fixed_pure _

theorem fixed_bump (counter : Formula) : Fixed v (bumpCourse (σ := σ) counter) :=
  .bind fixed_state fun _ => .bind (fixed_ofExcept _) fun _ =>
    fixed_change fun s => hv.agenda s _ s.stats

omit hv in
theorem fixed_checkRefutations : Fixed v (checkRefutationsCourse B) :=
  .bind fixed_state fun _ => .bind (fixed_ofExcept _) fun _ => fixed_forM (fun _ =>
    .bind (fixed_negate _) fun _ => .bind fixed_state fun _ =>
      fixed_branch (fixed_pure _) (fixed_throw _)) _

theorem Blind.marks (s : Search) (invalid : FormulaMap Nat) (propertyInvalid : Bool) :
    v { s with lineage := { s.lineage with invalid, propertyInvalid } } = v s :=
  hv s s.frame s.agenda s.index s.depth s.stats invalid propertyInvalid

theorem fixed_markInvalid (f : Formula) (k : Nat) : Fixed v (markInvalidCourse (σ := σ) f k) := by
  refine .of_keeps fun x => .bind (keeps_ok rfl rfl ?_)
  refine keeps_branch (fun _ => .bind ?_) fun _ => .bind (keeps_error rfl rfl)
  cases hmark : x.1.lineage.markInvalid f k with
  | error _ => exact keeps_error rfl rfl
  | ok lineage =>
      rw [Lineage.markInvalid] at hmark
      split at hmark
      next => cases hmark
      next =>
        obtain rfl := Except.ok.inj hmark
        exact keeps_ok rfl rfl (keeps_ok rfl (hv.marks x.1 _ _) trivial)

/-! Counterexamples. -/

omit hv in
theorem fixed_assertFalseAt (k : Nat) : Fixed v (assertFalseAtCourse B f k) :=
  .bind (fixed_update _) fun _ => .bind (fixed_negate _) fun _ => .bind (fixed_act _) fun _ =>
    fixed_act _

omit hv in
theorem fixed_assertTrace : ∀ (k : Nat) (trace : List Formula),
    Fixed v (assertTraceCourse B k trace)
  | _, [] => fixed_pure _
  | _, _ :: _ => .bind (fixed_act _) fun _ => .bind (fixed_act _) fun _ =>
      fixed_assertTrace _ _

omit hv in
theorem fixed_recordModel : Fixed v (recordModelCourse B) :=
  .bind (fixed_act _) fun _ => fixed_update _

theorem fixed_climb : ∀ (bound : Nat) (f : Formula) (k : Nat), Fixed v (climbCourse B bound f k)
  | 0, _, _ => fixed_throw _
  | bound + 1, f, k =>
      .bind (fixed_change fun s => hv.frame s s.frame _) fun _ => .bind (fixed_negate _) fun _ =>
        .bind (fixed_bump hv _) fun _ => .bind fixed_state fun s => by
          cases s.lineage.origin? f with
          | none =>
              exact fixed_branch (.bind (fixed_ask _) fun _ => fixed_report _ _ _)
                (fixed_pure _)
          | some origin =>
              refine .bind (fixed_checkedAdd _ _) fun _ => fixed_branch (fixed_pure _) ?_
              refine .bind (fixed_assertFalseAt _) fun _ => .bind (fixed_act _) fun _ => ?_
              refine fixed_branch ?_ (fixed_report _ _ _)
              exact .bind (fixed_markInvalid hv _ _) fun _ => .bind fixed_recordModel fun _ =>
                .bind (fixed_report _ _ _) fun _ => fixed_climb bound _ _

omit hv in
theorem fixed_lastFrame (trace : List Formula) : Fixed v (lastFrameCourse B trace) :=
  .bind fixed_state fun _ => fixed_checkedAdd _ _

theorem fixed_extendInScope (trace : List Formula) :
    Fixed v (extendInScopeCourse B config f trace) :=
  .bind (fixed_assertTrace _ _) fun _ => .bind (fixed_lastFrame trace) fun _ =>
    .bind (fixed_assertFalseAt _) fun _ => .bind (fixed_act _) fun _ =>
      fixed_unless (.bind fixed_recordModel fun _ =>
        fixed_branch (.bind fixed_state fun _ => fixed_climb hv _ _ _) (fixed_pure _))
        (fixed_throw _)

theorem fixed_extendFailure : Fixed v (extendFailureCourse B config f) :=
  .bind (fixed_ask _) fun trace => fixed_when (.bind fixed_state fun _ =>
    .bind (fixed_lastFrame trace) fun _ => fixed_unless (.bind (fixed_checkedAdd _ _) fun _ =>
      .bind (fixed_update _) fun _ => .bind (fixed_update _) fun _ =>
        .bind (fixed_extendInScope hv trace).attempt fun _ => .bind (fixed_act _) fun _ =>
          fixed_ofAttempt _) (fixed_throw _)) (fixed_throw _)

theorem fixed_failInduction : Fixed v (failInductionCourse B config f) :=
  .bind (fixed_ask _) fun trace => fixed_when (.bind (fixed_lastFrame trace) fun _ =>
    .bind (fixed_report _ _ _) fun _ => .bind (fixed_markInvalid hv _ _) fun _ =>
      .bind (fixed_change fun s => hv.marks s s.lineage.invalid true) fun _ =>
        fixed_extendFailure hv) (fixed_throw _)

/-! Rounds. -/

omit hv in
theorem fixed_saveGraph : Fixed v (saveGraphCourse B) :=
  .bind fixed_state fun _ => .bind (fixed_act _) fun _ => fixed_report _ _ _

omit hv in
theorem fixed_showInvariant : Fixed v (showInvariantCourse B config) :=
  fixed_branch (.bind fixed_state fun _ => fixed_forM (fun _ => fixed_report _ _ _) _)
    (fixed_pure _)

theorem Blind.clock (s : Search) (index depth : Nat) (stats : Statistics) :
    v { s with index, depth, stats } = v s :=
  hv s s.frame s.agenda index depth stats s.lineage.invalid s.lineage.propertyInvalid

theorem fixed_deepen : Fixed v (deepenCourse B) :=
  .bind (fixed_change fun _ => hv.agenda ..) fun _ => .bind fixed_state fun _ =>
    .bind fixed_state fun _ => .bind (fixed_checkedAdd _ _) fun _ =>
      .bind (fixed_change fun s => hv.clock s s.index _ s.stats) fun _ =>
        .bind (fixed_clearFrame hv.frame _) fun _ =>
          .bind (fixed_change fun s => hv.frame s s.frame _) fun _ => fixed_report _ _ _

theorem fixed_restore (ob : Obligation) : Fixed v (restoreCourse B ob) :=
  .bind (fixed_negate _) fun _ => .bind (fixed_addToFrame hv.frame _ _) fun _ =>
    .bind (fixed_addToFrame hv.frame _ _) fun _ => fixed_enqueue hv ob

section Staging

variable (hstaged : ∀ s staged, v { s with staged } = v s)
include hstaged

theorem fixed_carry (ob : Obligation) (forward : Formula) : Fixed v (carryCourse B ob forward) :=
  .bind (fixed_change fun _ => hstaged ..) fun _ => .bind (fixed_act _) fun _ =>
    .bind (fixed_act _) fun _ => .bind (fixed_change fun s => hv.frame s s.frame _) fun _ =>
      fixed_pure _

omit hstaged in
theorem fixed_weaken (ob : Obligation) (refutation : Formula) :
    Fixed v (weakenCourse B ob refutation) :=
  .bind (fixed_act _) fun _ => .bind (fixed_change fun s => hv.frame s _ s.stats) fun _ =>
    .bind (fixed_act _) fun _ => .bind (fixed_change fun s => hv.frame s _ s.stats) fun _ =>
      .bind (fixed_countFrame hv.frame) fun _ => .bind fixed_checkRefutations fun _ =>
        .bind (fixed_report _ _ _) fun _ => fixed_pure _

theorem fixed_stage (ob : Obligation) (refutation : Formula) :
    Fixed v (stageCourse B ob refutation) :=
  .bind (fixed_report _ _ _) fun _ => .bind (fixed_act _) fun
    | .unsat => fixed_carry hv hstaged _ _
    | .unknown => fixed_throw _
    | .sat _ _ => .bind (fixed_weaken hv _ _) fun _ => fixed_carry hv hstaged _ _

theorem fixed_rebuild : Fixed v (rebuildCourse B) :=
  .bind fixed_state fun _ => .bind (fixed_change fun _ => hstaged ..) fun _ =>
    .bind (fixed_forM (fixed_restore hv) _) fun _ =>
      .bind (fixed_change fun s => hv.frame s _ s.stats) fun _ => .bind (fixed_countFrame hv.frame)
        fun _ => .bind (fixed_change fun s => hv.frame s s.frame _) fun _ =>
          .bind fixed_checkRefutations fun _ => .bind fixed_state fun _ =>
            .bind fixed_state fun _ => .bind (fixed_checkedAdd _ _) fun _ =>
              fixed_change fun s => hv.clock s _ s.depth _

section Lineage

variable (hlineage : ∀ s lineage, v { s with lineage } = v s)
include hlineage

omit hstaged in
theorem fixed_refine (ob : Obligation) (refutation counter : Formula) :
    Fixed v (refineCourse B ob refutation counter) :=
  .bind (fixed_negate _) fun _ => .bind (fixed_report _ _ _) fun _ => .bind fixed_state fun _ =>
    .bind (fixed_act _) fun _ => .bind (fixed_report _ _ _) fun _ =>
      .bind (fixed_addToFrame hv.frame _ _) fun _ =>
        .bind (fixed_change fun s => hv.frame s _ s.stats) fun _ =>
          .bind (fixed_countFrame hv.frame) fun _ => .bind fixed_state fun _ =>
            .bind (fixed_change fun _ => hlineage ..) fun _ => .bind (fixed_checkedAdd _ _) fun _ =>
              .bind (fixed_report _ _ _) fun _ => .bind (fixed_enqueue hv _) fun _ => fixed_pure _

theorem fixed_push (ob : Obligation) : Fixed v (pushCourse B config ob) :=
  .bind (fixed_report _ _ _) fun _ => .bind (fixed_negate _) fun _ => .bind (fixed_act _) fun
    | .unsat => fixed_stage hv hstaged _ _
    | .unknown => fixed_throw _
    | .sat none _ => fixed_throw _
    | .sat (some _) none => fixed_throw _
    | .sat (some _) (some _) =>
        .bind (fixed_report _ _ _) fun _ => .bind fixed_state fun _ =>
          .bind (fixed_ofExcept _) fun (_, _) => .bind (fixed_act _) fun _ =>
            .bind (fixed_report _ _ _) fun _ => fixed_branch
              (.bind (fixed_failInduction hv) fun _ => fixed_pure _)
              (fixed_refine hv hlineage _ _ _)

theorem fixed_drain : ∀ fuel : Nat, Fixed v (drainCourse B config fuel)
  | 0 => fixed_throw _
  | fuel + 1 => .bind fixed_state fun _ => fixed_branch (fixed_pure _)
      (.bind (fixed_pop hv) fun _ => .bind (fixed_push hv hstaged hlineage _) fun _ =>
        fixed_branch (.bind (fixed_enqueue hv _) fun _ => fixed_drain fuel) (fixed_drain fuel))

theorem fixed_drainFrame (fuel : Nat) : Fixed v (drainFrameCourse B config fuel) :=
  .bind (fixed_drain hv hstaged hlineage _) fun _ =>
    fixed_branch (.bind fixed_saveGraph fun _ => fixed_pure _) (fixed_pure _)

omit hstaged in
theorem fixed_relocate (r : Relocation) : Fixed v (relocateCourse B r) :=
  .bind fixed_state fun _ => fixed_unless (.bind (fixed_change fun s => hv.frame s _ s.stats)
    fun _ => .bind fixed_state fun _ => .bind (fixed_ofExcept _) fun (_, _) =>
      .bind (fixed_filterM (fun _ => .bind fixed_state fun _ => .bind (fixed_negate _) fun _ =>
        fixed_pure _) _) fun _ => .bind (fixed_ofExcept _) fun _ =>
          .bind (fixed_change fun s => hv.agenda s _ s.stats) fun _ =>
            .bind fixed_checkRefutations fun _ => .bind (fixed_change fun _ => hlineage ..)
              fun _ => .bind (fixed_update _) fun _ => .bind (fixed_update _) fun _ =>
                .bind (fixed_countFrame hv.frame) fun _ =>
                  .bind (fixed_change fun s => hv.frame s s.frame _) fun _ =>
                    fixed_report _ _ _) (fixed_throw _)

omit hstaged in
theorem fixed_sweep : Fixed v (sweepCourse B) := by
  refine .bind (fixed_act _) fun moved => ?_
  cases moved with
  | none => exact fixed_pure _
  | some r => exact .bind (fixed_relocate hv hlineage r) fun _ => fixed_pure _

theorem fixed_advance : Fixed v (advanceCourse B config) :=
  .bind (fixed_deepen hv) fun _ => .bind fixed_state fun _ => fixed_branch
    (.bind (fixed_report _ _ _) fun _ => fixed_pure _)
    (.bind (fixed_rebuild hv hstaged) fun _ => stays_move (fixed_sweep hv hlineage).final)

theorem fixed_rounds : ∀ bound fuel : Nat, Fixed v (roundsCourse B config bound fuel)
  | 0, _ => fixed_throw _
  | bound + 1, _ => .bind (fixed_drainFrame hv hstaged hlineage _) fun _ =>
      .bind (fixed_change fun s => hv.frame s s.frame _) fun _ => .bind fixed_state fun _ =>
        fixed_branch (fixed_pure _) (fixed_branch
          (.bind fixed_showInvariant fun _ => fixed_pure _)
          (.bind (fixed_advance hv hstaged hlineage) fun _ =>
            fixed_branch (fixed_rounds bound _) (fixed_pure _)))

end Lineage

end Staging

section Properties

variable (hproperty : ∀ s p, v { s with lineage := s.lineage.addProperty p } = v s)
include hproperty

theorem fixed_addPropertyEnd (negation p : Formula) :
    Fixed v (addPropertyCourse.addPropertyEndCourse (σ := σ) negation p) :=
  .bind (fixed_bump hv _) fun _ => .bind (fixed_change fun _ => hproperty ..) fun _ =>
    fixed_pure _

theorem fixed_addProperty : ∀ (fuel : Nat) (p : Formula),
    Fixed v (addPropertyCourse B fuel p)
  | 0, _ => fixed_throw _
  | fuel + 1, p => .bind (fixed_ask _) fun
      | some conjuncts => fixed_allM (fixed_addProperty fuel) conjuncts
      | none => .bind (fixed_negate _) fun negation => .bind (fixed_act _) fun
          | .unsat => .bind fixed_state fun _ => fixed_branch
              (fixed_addPropertyEnd hv hproperty negation p)
              (.bind (fixed_addToFrame hv.frame _ _) fun _ =>
                .bind (fixed_addToFrame hv.frame _ _) fun _ => .bind (fixed_enqueue hv _) fun _ =>
                  fixed_addPropertyEnd hv hproperty negation p)
          | .sat none => fixed_throw _
          | .sat (some _) => .bind (fixed_report _ _ _) fun _ => .bind (fixed_update _) fun _ =>
              .bind (fixed_change fun s => (hv.marks _ _ true).trans (hproperty s p)) fun _ =>
                fixed_pure _
          | .unknown => fixed_throw _

theorem fixed_enter (fuel : Nat) (property : Formula) :
    Fixed v (enterCourse B fuel property) :=
  .bind (fixed_act _) fun _ => .bind (fixed_act _) fun _ =>
    .bind (fixed_change fun s => hv.clock s _ _ s.stats) fun _ =>
      .bind (fixed_clearFrame hv.frame _) fun _ => fixed_addProperty hv hproperty fuel property

end Properties

end Invariance.Search
