import Invariance.Proofs.FiniteState.Passing.Idle
import Invariance.Proofs.Search.Courses

/-!
What comes into a frame. Most courses of the search leave the members of the frame, its index and
the formulas of the induction solver as they were in every state, also up to a fault; the others
bring in a formula that they were given.
-/

namespace Invariance.FiniteState

open Universe Session

variable {M : Machine} {config : Config} {α β : Type} {f g : Formula} {P : Formula → Prop}

/-- Every formula that is a member of the frame, or that the induction solver has, was so before or
is a new one. -/
structure Adds (P : Formula → Prop) (x y : Search × Session) : Prop where
  members : ∀ f, y.1.frame.contains f = true → P f ∨ x.1.frame.contains f = true
  first : ∀ f ∈ y.2.induction.first, P f ∨ f ∈ x.2.induction.first
  between : ∀ f ∈ y.2.induction.intermediate, P f ∨ f ∈ x.2.induction.intermediate
  index : y.1.index = x.1.index
  system : y.2.system = x.2.system
  terms : Extends x.2.terms y.2.terms

namespace Adds

variable {x y z : Search × Session}

theorem refl (x : Search × Session) : Adds P x x :=
  ⟨fun _ => Or.inr, fun _ => Or.inr, fun _ => Or.inr, rfl, rfl, .refl _⟩

theorem trans (h : Adds P x y) (h' : Adds P y z) : Adds P x z where
  members f hf := (h'.members f hf).elim Or.inl (h.members f)
  first f hf := (h'.first f hf).elim Or.inl (h.first f)
  between f hf := (h'.between f hf).elim Or.inl (h.between f)
  index := h'.index.trans h.index
  system := h'.system.trans h.system
  terms := h.terms.trans h'.terms

theorem of_idle {s t : Search} {w w' : Session} (hidle : Idle w w')
    (hframe : t.frame = s.frame) (hindex : t.index = s.index) : Adds P (s, w) (t, w') where
  members _ hf := Or.inr (hframe ▸ hf)
  first _ hf := Or.inr (hidle.induction ▸ hf)
  between _ hf := Or.inr (hidle.induction ▸ hf)
  index := hindex
  system := hidle.system
  terms := hidle.terms

end Adds

section Rules

variable {act : SearchM Session α} {next : α → SearchM Session β}

/-- A course on which only these formulas come in. -/
def Adding (P : Formula → Prop) (c : Course act) : Prop := c.Stays (Adds P)

theorem Adding.bind {c : Course act} {d : ∀ a, Course (next a)} (h : Adding P c)
    (hd : ∀ a, Adding P (d a)) : Adding P (c.bind d) :=
  Course.Stays.bind (R := Adds P) (fun h h' => h.trans h') h hd

theorem adding_branch {c : Prop} [Decidable c] {other : SearchM Session α} {yes : Course act}
    {no : Course other} (h : Adding P yes) (h' : Adding P no) :
    Adding P (.branch (c := c) yes no) :=
  Course.stays_branch h h'

theorem adding_unless {c : Prop} [Decidable c] {other : SearchM Session β} {rest : Course act}
    (h : Adding P rest) (hother : Adding P (.move other)) :
    Adding P (Search.unlessCourse (c := c) (b := other) rest) :=
  adding_branch h (.bind hother fun _ => h)

theorem adding_when {c : Prop} [Decidable c] {other : SearchM Session β} {rest : Course act}
    (h : Adding P rest) (hother : Adding P (.move other)) :
    Adding P (Search.whenCourse (c := c) (b := other) rest) :=
  adding_branch (.bind hother fun _ => h) h

theorem adding_of_same (h : ∀ x, act.final x = x) : Adding P (.move act) :=
  Course.stays_move fun x => (h x).symm ▸ .refl x

theorem adding_forM {each : α → SearchM Session PUnit} {c : ∀ a, Course (each a)}
    (h : ∀ a, Adding P (c a)) : ∀ l, Adding P (Search.forMCourse c l)
  | [] => adding_of_same fun _ => rfl
  | a :: l => .bind (h a) fun _ => adding_forM h l

end Rules

/-! Moves. -/

theorem adding_state : Adding P (.move (Search.state : SearchM Session Search)) :=
  adding_of_same fun _ => rfl

theorem adding_ask {m : Session → α} : Adding P (.move (Search.ask m)) :=
  adding_of_same fun _ => rfl

theorem adding_pure {a : α} : Adding P (.move (pure a : SearchM Session α)) :=
  adding_of_same fun _ => rfl

theorem adding_throw {fault : Fault} : Adding P (.move (throw fault : SearchM Session α)) :=
  adding_of_same fun _ => rfl

theorem adding_ofExcept {e : Except Violation α} :
    Adding P (.move (Action.ofExcept e : SearchM Session α)) :=
  adding_of_same fun _ => by cases e <;> rfl

theorem adding_ofAttempt {r : Except CheckError α} :
    Adding P (.move (Action.ofAttempt r : SearchM Session α)) :=
  adding_of_same fun _ => by cases r <;> rfl

theorem adding_change {s : Search → Search}
    (h : ∀ t, (s t).frame = t.frame ∧ (s t).index = t.index) :
    Adding P (.move (Search.change s : SearchM Session Unit)) :=
  Course.stays_move fun x => .of_idle (.refl _) (h x.1).1 (h x.1).2

theorem adding_update {m : Session → Session} (h : ∀ w, Idle w (m w)) :
    Adding P (.move (Search.update m)) :=
  Course.stays_move fun x => .of_idle (h x.2) rfl rfl

theorem adding_act {action : Action Session α} (h : Idles action) :
    Adding P (.move (Search.act action)) :=
  Course.stays_move fun x => by
    rw [Search.act, Action.final_within]
    exact .of_idle (h x.2) rfl rfl

theorem adding_report {level : Level} {message : String}
    {fields : Search → (Formula → String) → List (String × Field)} :
    Adding P (.move (Search.report (backend M) level message fields)) :=
  Course.stays_move fun _ => .of_idle ⟨rfl, rfl, .refl _⟩ rfl rfl

theorem adding_negate : Adding P (.move (Search.negate (backend M) f)) :=
  adding_act (idles_making fun h => (negate_grows h).1)

theorem adding_disjoin : Adding P (.move (Search.step ((backend M).terms.disjoin f g))) :=
  adding_act (idles_making fun h => (disjoin_grows h).1)

theorem adding_atStep {k : Nat} :
    Adding P (.move (Search.step ((backend M).recorder.atStep f k))) := by
  change Adding P (.move (Search.act (Action.ofStep (making fun u => .ok (u.atStep f k)))))
  refine adding_act (idles_making fun {u _ _} h => ?_)
  obtain ⟨rfl, rfl⟩ := Prod.mk.inj (Except.ok.inj h)
  exact (u.intern_grows _).1

theorem adding_ensureDepth {k : Nat} :
    Adding P (.move (Search.update ((backend M).solver.ensureDepth k))) :=
  adding_update fun _ => ⟨rfl, rfl, .refl _⟩

theorem adding_assert : Adding P (.move (Search.act ((backend M).solver.assert f))) :=
  adding_act (idles_assert f)

theorem adding_check : Adding P (.move (Search.act (backend M).solver.check)) :=
  adding_act idles_check

theorem adding_checkInductive :
    Adding P (.move (Search.act ((backend M).oracle.checkInductive f))) :=
  adding_act (idles_checkInductive f)

theorem adding_interpolate :
    Adding P (.move (Search.act ((backend M).oracle.interpolate f))) :=
  adding_of_same fun _ => rfl

theorem adding_learnForward {n : Nat} :
    Adding P (.move (Search.act ((backend M).oracle.learnForward n f))) :=
  adding_act (idles_learnForward n f)

theorem adding_checkReachable {first last : Nat} {model : List Nat} :
    Adding P (.move (Search.act ((backend M).reachability.check first last f model))) :=
  adding_act (idles_checkReachable first last f)

/-! Obligations in the agenda. -/

theorem adding_countFrame : Adding P (.move (Search.countFrame : SearchM Session Unit)) :=
  adding_change fun _ => ⟨rfl, rfl⟩

theorem adding_checkedAdd {a b : Nat} : Adding P (.move (Search.checkedAdd (backend M) a b)) :=
  adding_ofExcept

theorem adding_enqueue (ob : Obligation) : Adding P (Search.enqueueCourse (backend M) ob) :=
  .bind adding_negate fun _ => .bind adding_state fun _ => adding_unless
    (.bind adding_ofExcept fun _ => adding_change fun _ => ⟨rfl, rfl⟩) adding_throw

theorem adding_pop : Adding P (Search.popCourse (σ := Session)) :=
  .bind adding_state fun _ => .bind adding_ofExcept fun _ =>
    .bind (adding_change fun _ => ⟨rfl, rfl⟩) fun _ => adding_pure

theorem adding_bump (counter : Formula) : Adding P (Search.bumpCourse (σ := Session) counter) :=
  .bind adding_state fun _ => .bind adding_ofExcept fun _ => adding_change fun _ => ⟨rfl, rfl⟩

theorem adding_checkRefutations : Adding P (Search.checkRefutationsCourse (backend M)) :=
  .bind adding_state fun _ => .bind adding_ofExcept fun _ => adding_forM (fun _ =>
    .bind adding_negate fun _ => .bind adding_state fun _ =>
      adding_branch adding_pure adding_throw) _

theorem adding_markInvalid (k : Nat) : Adding P (Search.markInvalidCourse (σ := Session) f k) :=
  .bind adding_state fun _ => adding_unless
    (.bind adding_ofExcept fun _ => adding_change fun _ => ⟨rfl, rfl⟩) adding_throw

/-! Counterexamples. -/

theorem adding_assertFalseAt (k : Nat) : Adding P (Search.assertFalseAtCourse (backend M) f k) :=
  .bind adding_ensureDepth fun _ => .bind adding_negate fun _ => .bind adding_atStep fun _ =>
    adding_assert

theorem adding_assertTrace : ∀ (k : Nat) (trace : List Formula),
    Adding P (Search.assertTraceCourse (backend M) k trace)
  | _, [] => adding_pure
  | _, _ :: _ => .bind adding_atStep fun _ => .bind adding_assert fun _ => adding_assertTrace _ _

theorem adding_recordModel : Adding P (Search.recordModelCourse (backend M)) :=
  .bind (adding_act idles_model) fun _ => adding_update fun _ => ⟨rfl, rfl, .refl _⟩

theorem adding_climb : ∀ (bound : Nat) (f : Formula) (k : Nat),
    Adding P (Search.climbCourse (backend M) bound f k)
  | 0, _, _ => adding_throw
  | bound + 1, f, k =>
      .bind (adding_change fun _ => ⟨rfl, rfl⟩) fun _ => .bind adding_negate fun _ =>
        .bind (adding_bump _) fun _ => .bind adding_state fun s => by
          cases s.lineage.origin? f with
          | none => exact adding_branch (.bind adding_ask fun _ => adding_report) adding_pure
          | some origin =>
              refine .bind adding_checkedAdd fun _ => adding_branch adding_pure ?_
              refine .bind (adding_assertFalseAt _) fun _ => .bind adding_check fun _ => ?_
              refine adding_branch ?_ adding_report
              exact .bind (adding_markInvalid _) fun _ => .bind adding_recordModel fun _ =>
                .bind adding_report fun _ => adding_climb bound _ _

theorem adding_lastFrame (trace : List Formula) :
    Adding P (Search.lastFrameCourse (backend M) trace) :=
  .bind adding_state fun _ => adding_checkedAdd

theorem adding_extendInScope (trace : List Formula) :
    Adding P (Search.extendInScopeCourse (backend M) config f trace) :=
  .bind (adding_assertTrace _ _) fun _ => .bind (adding_lastFrame trace) fun _ =>
    .bind (adding_assertFalseAt _) fun _ => .bind adding_check fun _ =>
      adding_unless (.bind adding_recordModel fun _ =>
        adding_branch (.bind adding_state fun _ => adding_climb _ _ _) adding_pure) adding_throw

theorem adding_extendFailure : Adding P (Search.extendFailureCourse (backend M) config f) :=
  .bind adding_ask fun trace => adding_when (.bind adding_state fun _ =>
    .bind (adding_lastFrame trace) fun _ => adding_unless (.bind adding_checkedAdd fun _ =>
      .bind adding_ensureDepth fun _ => .bind (adding_update fun _ => ⟨rfl, rfl, .refl _⟩) fun _ =>
        .bind (adding_extendInScope trace).attempt fun _ => .bind (adding_act idles_pop) fun _ =>
          adding_ofAttempt) adding_throw) adding_throw

theorem adding_failInduction : Adding P (Search.failInductionCourse (backend M) config f) :=
  .bind adding_ask fun trace => adding_when (.bind (adding_lastFrame trace) fun _ =>
    .bind adding_report fun _ => .bind (adding_markInvalid _) fun _ =>
      .bind (adding_change fun _ => ⟨rfl, rfl⟩) fun _ => adding_extendFailure) adding_throw

/-! Rounds. -/

theorem adding_saveGraph : Adding P (Search.saveGraphCourse (backend M)) :=
  .bind adding_state fun _ => .bind (adding_act (idles_saveGraph _ _)) fun _ => adding_report

theorem adding_showInvariant : Adding P (Search.showInvariantCourse (backend M) config) :=
  adding_branch (.bind adding_state fun _ => adding_forM (fun _ => adding_report) _) adding_pure

theorem adding_erase {s : Search → Search}
    (h : ∀ t, (s t).frame = t.frame.erase f ∧ (s t).index = t.index) :
    Adding P (.move (Search.change s : SearchM Session Unit)) :=
  Course.stays_move fun x => ⟨fun g hg => by
    change (s x.1).frame.contains g = true at hg
    rw [(h x.1).1, Frame.contains, Frame.erase, FormulaMap.contains_erase, Bool.and_eq_true] at hg
    exact Or.inr hg.2, fun _ => Or.inr, fun _ => Or.inr, (h x.1).2, rfl, .refl _⟩

theorem adding_clearFrame (depth : Nat) :
    Adding P (Search.clearFrameCourse (backend M) depth) := by
  let R (x y : Frame × Session) : Prop := Adds P ({ frame := x.1 }, x.2) ({ frame := y.1 }, y.2)
  refine .bind (Course.stays_within (R := R) (.of_keeps fun x => ?_) fun x y h => ?_)
    fun _ => adding_countFrame
  · have hempty : ∀ g, ({} : Frame).contains g = true → P g ∨ x.1.contains g = true :=
      fun g hg => by cases hg
    refine .bind (Course.keeps_ok rfl ?_ ?_)
    · exact ⟨hempty, fun _ => Or.inr, fun _ => Or.inr, rfl, rfl, .refl _⟩
    refine Course.keeps_within (Course.keeps_move ?_ Action.ends_trivial)
    change R x (_, Action.final (if depth = 0 then _ else _) x.2)
    split
    · exact ⟨hempty, fun _ => Or.inr, fun _ => Or.inr, rfl, rfl, .refl _⟩
    · exact ⟨hempty, fun _ h => (by cases h), fun _ h => (by cases h), rfl, rfl, .refl _⟩
  · exact ⟨h.members, h.first, h.between, rfl, h.system, h.terms⟩

theorem adding_deepen : Adding P (Search.deepenCourse (backend M)) :=
  .bind (adding_change fun _ => ⟨rfl, rfl⟩) fun _ => .bind adding_state fun _ =>
    .bind adding_state fun _ => .bind adding_checkedAdd fun _ =>
      .bind (adding_change fun _ => ⟨rfl, rfl⟩) fun _ => .bind (adding_clearFrame _) fun _ =>
        .bind (adding_change fun _ => ⟨rfl, rfl⟩) fun _ => adding_report

/-! New formulas. -/

theorem final_register (role : Role) (w : Session) :
    ((backend M).oracle.register f role).final w = w ∨
      ((backend M).oracle.register f role).final w =
        { w with induction := w.induction.enter f role } := by
  change Action.final (get >>= fun s => _) w = _ ∨ Action.final (get >>= fun s => _) w = _
  rw [Action.final_bind]
  change Action.final (_ >>= _) w = _ ∨ Action.final (_ >>= _) w = _
  rw [Action.final_bind]
  cases hf : w.terms.eval f with
  | error flaw =>
      simp only [InductionSolver.register, hf, bind, Except.bind]
      exact Or.inl rfl
  | ok s =>
      simp only [InductionSolver.register, hf, bind, Except.bind]
      cases role <;> exact Or.inr rfl

theorem Adds.enter {s t : Search} {w : Session} (hf : P f) (role : Role)
    (hframe : ∀ g, t.frame.contains g = true → P g ∨ s.frame.contains g = true)
    (hindex : t.index = s.index) :
    Adds P (s, w) (t, { w with induction := w.induction.enter f role }) := by
  have hsnoc : ∀ fs : List Formula, ∀ g ∈ fs ++ [f], P g ∨ g ∈ fs := fun fs g hg => by
    rcases List.mem_append.mp hg with hg | hg
    · exact Or.inr hg
    · exact Or.inl (List.mem_singleton.mp hg ▸ hf)
  cases role with
  | first => exact ⟨hframe, hsnoc _, fun _ => Or.inr, hindex, rfl, .refl _⟩
  | intermediate => exact ⟨hframe, fun _ => Or.inr, hsnoc _, hindex, rfl, .refl _⟩

theorem adding_register (hf : P f) (role : Role) :
    Adding P (.move (Search.act ((backend M).oracle.register f role))) :=
  Course.stays_move fun x => by
    rw [Search.act, Action.final_within]
    rcases final_register (M := M) (f := f) role x.2 with heq | heq
    · rw [heq]
      exact .refl x
    · rw [heq]
      exact .enter hf role (fun _ => Or.inr) rfl

theorem contains_insert_new (hf : P f) {frame : Frame}
    (hg : (frame.insert f).contains g = true) : P g ∨ frame.contains g = true := by
  rcases Frame.contains_insert.mp hg with rfl | hg
  · exact Or.inl hf
  · exact Or.inr hg

theorem enter_new (hf : P f) {role : Role} {frame frame' : Frame}
    (h : frame.enter f role = .ok frame') (hg : frame'.contains g = true) :
    P g ∨ frame.contains g = true :=
  ((Frame.contains_enter h).mp hg).imp_left fun ⟨_, heq⟩ => heq ▸ hf

theorem adding_insert (hf : P f) {s : Search → Search}
    (h : ∀ t, (s t).frame = t.frame.insert f ∧ (s t).index = t.index) :
    Adding P (.move (Search.change s : SearchM Session Unit)) :=
  Course.stays_move fun x => ⟨fun g hg => by
    change (s x.1).frame.contains g = true at hg
    rw [(h x.1).1] at hg
    exact contains_insert_new hf hg, fun _ => Or.inr, fun _ => Or.inr, (h x.1).2, rfl, .refl _⟩

theorem adding_addToFrame (hf : P f) (role : Role) :
    Adding P (Search.addToFrameCourse (backend M) f role) := by
  let R (x y : Frame × Session) : Prop := Adds P ({ frame := x.1 }, x.2) ({ frame := y.1 }, y.2)
  refine .bind (Course.stays_within (R := R) (.of_keeps fun x => ?_) fun x y h => ?_)
    fun _ => adding_countFrame
  · obtain ⟨frame, w⟩ := x
    refine .bind (Course.keeps_ok rfl (.refl _) (.bind ?_))
    cases henter : frame.enter f role with
    | error v => exact Course.keeps_error rfl (.refl _)
    | ok frame' =>
        have hmembers := fun g => enter_new (g := g) hf henter
        refine Course.keeps_ok rfl (.refl _) (.bind (Course.keeps_ok rfl ?_ ?_))
        · exact ⟨hmembers, fun _ => Or.inr, fun _ => Or.inr, rfl, rfl, .refl _⟩
        · refine Course.keeps_within (Course.keeps_move ?_ Action.ends_trivial)
          rcases final_register (M := M) (f := f) role w with heq | heq
          · rw [heq]
            exact ⟨hmembers, fun _ => Or.inr, fun _ => Or.inr, rfl, rfl, .refl _⟩
          · rw [heq]
            exact .enter hf role hmembers rfl
  · exact ⟨h.members, h.first, h.between, rfl, h.system, h.terms⟩

theorem adding_carry {ob : Obligation} (hf : P f) :
    Adding P (Search.carryCourse (backend M) ob f) :=
  .bind (adding_change fun _ => ⟨rfl, rfl⟩) fun _ => .bind (adding_register hf .first) fun _ =>
    .bind (adding_register hf .intermediate) fun _ =>
      .bind (adding_change fun _ => ⟨rfl, rfl⟩) fun _ => adding_pure

end Invariance.FiniteState
