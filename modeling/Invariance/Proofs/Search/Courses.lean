import Invariance.Proofs.Courses
import Invariance.Search.Round

/-!
The courses of the search. Every change of the search state is a move of its own, and so is every
call of the backend. Only a sweep and the relocation after it are one move: in between, the search
holds formulas by numbers that are out of date.
-/

namespace Invariance.Search

open Course

variable {S σ μ α β : Type} (B : Backend S σ μ) (config : Config)

def unlessCourse {c : Prop} [Decidable c] {act : Action σ β} {b : Action σ α}
    (rest : Course act) : Course (if c then act else b >>= fun _ => act) :=
  .branch rest (.bind (.move b) fun _ => rest)

def whenCourse {c : Prop} [Decidable c] {act : Action σ β} {b : Action σ α}
    (rest : Course act) : Course (if c then b >>= fun _ => act else act) :=
  .branch (.bind (.move b) fun _ => rest) rest

def forMCourse {act : α → Action σ PUnit} (c : ∀ a, Course (act a)) :
    (l : List α) → Course (l.forM act)
  | [] => .move _
  | a :: l => .bind (c a) fun _ => forMCourse c l

def allMCourse {act : α → Action σ Bool} (c : ∀ a, Course (act a)) :
    (l : List α) → Course (l.allM act)
  | [] => .move _
  | a :: l => .bind (c a) fun
      | true => allMCourse c l
      | false => .move _

def filterMCourse {act : α → Action σ Bool} (c : ∀ a, Course (act a)) (l : List α) :
    Course (l.filterM act) :=
  .bind (go l []) fun _ => .move _
where
  go : (l kept : List α) → Course (List.filterAuxM act l kept)
    | [], _ => .move _
    | a :: l, _ => .bind (c a) fun _ => go l _

def addToFrameCourse (f : Formula) (role : Role) : Course (addToFrame B f role) :=
  .bind (.within _ _ (.bind (.move _) fun (_, _) => .bind (.move _) fun _ =>
    .bind (.move _) fun _ => .within _ _ (.move _))) fun _ => .move _

def clearFrameCourse (depth : Nat) : Course (clearFrame B depth) :=
  .bind (.within _ _ (.bind (.move _) fun _ => .within _ _ (.move _))) fun _ => .move _

def enqueueCourse (ob : Obligation) : Course (enqueue B ob) :=
  .bind (.move _) fun _ => .bind (.move _) fun _ =>
    unlessCourse (.bind (.move _) fun (_, _) => .move _)

def popCourse : Course (pop : SearchM σ Obligation) :=
  .bind (.move _) fun _ => .bind (.move _) fun (_, _) => .bind (.move _) fun _ => .move _

def bumpCourse (counter : Formula) : Course (bump counter : SearchM σ Unit) :=
  .bind (.move _) fun _ => .bind (.move _) fun (_, _) => .move _

def checkRefutationsCourse : Course (checkRefutations B) :=
  .bind (.move _) fun _ => .bind (.move _) fun _ => forMCourse (fun _ =>
    .bind (.move _) fun _ => .bind (.move _) fun _ => .branch (.move _) (.move _)) _

def markInvalidCourse (f : Formula) (frame : Nat) : Course (markInvalid (σ := σ) f frame) :=
  .bind (.move _) fun _ => unlessCourse (.bind (.move _) fun _ => .move _)

/-! Counterexamples. -/

def assertFalseAtCourse (f : Formula) (k : Nat) : Course (assertFalseAt B f k) :=
  .bind (.move _) fun _ => .bind (.move _) fun _ => .bind (.move _) fun _ => .move _

def assertTraceCourse : (k : Nat) → (trace : List Formula) → Course (assertTrace B k trace)
  | _, [] => .move _
  | _, _ :: _ => .bind (.move _) fun _ => .bind (.move _) fun _ => assertTraceCourse _ _

def recordModelCourse : Course (recordModel B) := .bind (.move _) fun _ => .move _

def climbCourse : (bound : Nat) → (f : Formula) → (k : Nat) → Course (climb B bound f k)
  | 0, _, _ => .move _
  | bound + 1, f, _ =>
      .bind (.move _) fun _ => .bind (.move _) fun _ => .bind (bumpCourse _) fun _ =>
        .bind (.move _) fun s =>
          match s.lineage.origin? f with
          | none => .branch (.bind (.move _) fun _ => .move _) (.move _)
          | some _ => .bind (.move _) fun _ => .branch (.move _)
              (.bind (assertFalseAtCourse B _ _) fun _ => .bind (.move _) fun _ => .branch
                (.bind (markInvalidCourse _ _) fun _ => .bind (recordModelCourse B) fun _ =>
                  .bind (.move _) fun _ => climbCourse bound _ _)
                (.move _))

def lastFrameCourse (trace : List Formula) : Course (lastFrame B trace) :=
  .bind (.move _) fun _ => .move _

def extendInScopeCourse (f : Formula) (trace : List Formula) :
    Course (extendInScope B config f trace) :=
  .bind (assertTraceCourse B 0 trace) fun _ => .bind (lastFrameCourse B trace) fun _ =>
    .bind (assertFalseAtCourse B f _) fun _ => .bind (.move _) fun _ =>
      unlessCourse (.bind (recordModelCourse B) fun _ =>
        .branch (.bind (.move _) fun _ => climbCourse B _ _ _) (.move _))

def extendFailureCourse (f : Formula) : Course (extendFailure B config f) :=
  .bind (.move _) fun trace => whenCourse (.bind (.move _) fun _ =>
    .bind (lastFrameCourse B trace) fun _ => unlessCourse (.bind (.move _) fun _ =>
      .bind (.move _) fun _ => .bind (.move _) fun _ =>
        .bind (.attempt (extendInScopeCourse B config f trace)) fun _ =>
          .bind (.move _) fun _ => .move _))

def failInductionCourse (refutation : Formula) : Course (failInduction B config refutation) :=
  .bind (.move _) fun trace => whenCourse (.bind (lastFrameCourse B trace) fun _ =>
    .bind (.move _) fun _ => .bind (markInvalidCourse _ _) fun _ => .bind (.move _) fun _ =>
      extendFailureCourse B config refutation)

/-! Obligations. -/

def carryCourse (ob : Obligation) (forward : Formula) : Course (carry B ob forward) :=
  .bind (.move _) fun _ => .bind (.move _) fun _ => .bind (.move _) fun _ =>
    .bind (.move _) fun _ => .move _

def weakenCourse (ob : Obligation) (refutation : Formula) : Course (weaken B ob refutation) :=
  .bind (.move _) fun _ => .bind (.move _) fun _ => .bind (.move _) fun _ =>
    .bind (.move _) fun _ => .bind (.move _) fun _ => .bind (checkRefutationsCourse B) fun _ =>
      .bind (.move _) fun _ => .move _

def stageCourse (ob : Obligation) (refutation : Formula) : Course (stage B ob refutation) :=
  .bind (.move _) fun _ => .bind (.move _) fun answer =>
    match answer with
    | .unsat => carryCourse B ob ob.forward
    | .unknown => .move _
    | .sat _ _ => .bind (weakenCourse B ob refutation) fun _ => carryCourse B ob _

def refineCourse (ob : Obligation) (refutation counter : Formula) :
    Course (refine B ob refutation counter) :=
  .bind (.move _) fun _ => .bind (.move _) fun _ => .bind (.move _) fun _ =>
    .bind (.move _) fun _ => .bind (.move _) fun _ => .bind (addToFrameCourse B _ .first) fun _ =>
      .bind (.move _) fun _ => .bind (.move _) fun _ => .bind (.move _) fun _ =>
        .bind (.move _) fun _ => .bind (.move _) fun _ => .bind (.move _) fun _ =>
          .bind (enqueueCourse B _) fun _ => .move _

def answerCounterCourse (ob : Obligation) (refutation counter : Formula) (model : μ) :
    Course (answerCounter B config ob refutation counter model) :=
  .bind (.move _) fun _ => .bind (.move _) fun _ => .bind (.move _) fun (_, _) =>
    .bind (.move _) fun _ => .bind (.move _) fun _ => .branch
      (.bind (failInductionCourse B config refutation) fun _ => .move _)
      (refineCourse B ob refutation counter)

def pushCourse (ob : Obligation) : Course (push B config ob) :=
  .bind (.move _) fun _ => .bind (.move _) fun _ => .bind (.move _) fun answer =>
    match answer with
    | .unsat => stageCourse B ob _
    | .unknown => .move _
    | .sat none _ => .move _
    | .sat (some _) none => .move _
    | .sat (some _) (some _) => answerCounterCourse B config ob _ _ _

/-! Rounds. -/

def drainCourse : (fuel : Nat) → Course (drain B config fuel)
  | 0 => .move _
  | fuel + 1 => .bind (.move _) fun _ => .branch (.move _) (.bind popCourse fun _ =>
      .bind (pushCourse B config _) fun _ => .branch
        (.bind (enqueueCourse B _) fun _ => drainCourse fuel) (drainCourse fuel))

def saveGraphCourse : Course (saveGraph B) :=
  .bind (.move _) fun _ => .bind (.move _) fun _ => .move _

def drainFrameCourse (fuel : Nat) : Course (drainFrame B config fuel) :=
  .bind (drainCourse B config fuel) fun _ =>
    .branch (.bind (saveGraphCourse B) fun _ => .move _) (.move _)

def restoreCourse (ob : Obligation) : Course (restore B ob) :=
  .bind (.move _) fun _ => .bind (addToFrameCourse B _ .first) fun _ =>
    .bind (addToFrameCourse B _ .intermediate) fun _ => enqueueCourse B ob

def rebuildCourse : Course (rebuild B) :=
  .bind (.move _) fun _ => .bind (.move _) fun _ => .bind (forMCourse (restoreCourse B) _) fun _ =>
    .bind (.move _) fun _ => .bind (.move _) fun _ => .bind (.move _) fun _ =>
      .bind (checkRefutationsCourse B) fun _ => .bind (.move _) fun _ => .bind (.move _) fun _ =>
        .bind (.move _) fun _ => .move _

def deepenCourse : Course (deepen B) :=
  .bind (.move _) fun _ => .bind (.move _) fun _ => .bind (.move _) fun _ =>
    .bind (.move _) fun _ => .bind (.move _) fun _ => .bind (clearFrameCourse B _) fun _ =>
      .bind (.move _) fun _ => .move _

def showInvariantCourse : Course (showInvariant B config) :=
  .branch (.bind (.move _) fun _ => forMCourse (fun _ => .move _) _) (.move _)

/-- The last move is the sweep, with the relocation if it renamed anything. -/
def advanceCourse : Course (advance B config) :=
  .bind (deepenCourse B) fun _ => .bind (.move _) fun _ => .branch
    (.bind (.move _) fun _ => .move _) (.bind (rebuildCourse B) fun _ => .move _)

def roundsCourse : (bound fuel : Nat) → Course (rounds B config bound fuel)
  | 0, _ => .move _
  | bound + 1, fuel => .bind (drainFrameCourse B config fuel) fun _ => .bind (.move _) fun _ =>
      .bind (.move _) fun _ => .branch (.move _) (.branch
        (.bind (showInvariantCourse B config) fun _ => .move _)
        (.bind (advanceCourse B config) fun _ => .branch (roundsCourse bound _) (.move _)))

/-- The course of a relocation, for when it is looked at by itself. -/
def relocateCourse (r : Relocation) : Course (relocate B r) :=
  .bind (.move _) fun _ => unlessCourse (.bind (.move _) fun _ => .bind (.move _) fun _ =>
    .bind (.move _) fun (_, _) => .bind (filterMCourse (fun _ => .bind (.move _) fun _ =>
      .bind (.move _) fun _ => .move _) _) fun _ => .bind (.move _) fun _ =>
        .bind (.move _) fun _ => .bind (checkRefutationsCourse B) fun _ => .bind (.move _) fun _ =>
          .bind (.move _) fun _ => .bind (.move _) fun _ => .bind (.move _) fun _ =>
            .bind (.move _) fun _ => .move _)

/-- The course of a sweep, for when it is looked at by itself. -/
def sweepCourse : Course (act B.oracle.sweep >>= fun
    | none => pure true
    | some r => relocate B r >>= fun _ => pure true) :=
  .bind (.move _) fun
    | none => .move _
    | some r => .bind (relocateCourse B r) fun _ => .move _

def addPropertyCourse : (fuel : Nat) → (p : Formula) → Course (addProperty B fuel p)
  | 0, _ => .move _
  | fuel + 1, p => .bind (.move _) fun conjuncts =>
      match conjuncts with
      | some conjuncts => allMCourse (addPropertyCourse fuel) conjuncts
      | none => .bind (.move _) fun negation => .bind (.move _) fun answer =>
          match answer with
          | .unsat => .bind (.move _) fun _ => .branch (addPropertyEndCourse negation p)
              (.bind (addToFrameCourse B p .first) fun _ =>
                .bind (addToFrameCourse B p .intermediate) fun _ =>
                  .bind (enqueueCourse B _) fun _ => addPropertyEndCourse negation p)
          | .sat none => .move _
          | .sat (some _) => .bind (.move _) fun _ => .bind (.move _) fun _ =>
              .bind (.move _) fun _ => .move _
          | .unknown => .move _
where
  addPropertyEndCourse (negation p : Formula) : Course (do
      bump negation
      change fun s => { s with lineage := s.lineage.addProperty p }
      return true : SearchM σ Bool) :=
    .bind (bumpCourse negation) fun _ => .bind (.move _) fun _ => .move _

/-! The loop of a query. -/

/-- What comes before the loop. The answer says whether the property holds initially. -/
def enter (fuel : Nat) (property : Formula) : SearchM σ Bool := do
  act (B.terms.validate property)
  act B.reachability.init
  change fun s => { s with index := 0, depth := 1 }
  clearFrame B 1
  addProperty B fuel property

/-- The loop, and what is left to do after it. -/
def loop (fuel : Nat) : SearchM σ Outcome := do
  report B .info "starting IC3 search" fun s _ =>
    [("properties", .number s.lineage.properties.size)]
  let result ← Action.attempt (rounds B config fuel fuel)
  change fun s => { s with staged := [] }
  let outcome ← Action.ofAttempt result
  report B .info "IC3 search done" fun s _ =>
    [("outcome", .text outcome.render), ("rounds", .number s.stats.rounds)]
  conclude outcome

theorem run_eq (fuel : Nat) (property : Formula) : run B config fuel property = (do
    if ← enter B fuel property then
      loop B config fuel
    else
      report B .info "property fails in an initial state"
      conclude .invalid) := by
  simp only [run, enter, bind_assoc]
  rfl

def loopCourse (fuel : Nat) : Course (loop B config fuel) :=
  .bind (.move _) fun _ => .bind (.attempt (roundsCourse B config fuel fuel)) fun _ =>
    .bind (.move _) fun _ => .bind (.move _) fun _ => .bind (.move _) fun _ =>
      .bind (.move _) fun _ => .move _

def enterCourse (fuel : Nat) (property : Formula) : Course (enter B fuel property) :=
  .bind (.move _) fun _ => .bind (.move _) fun _ => .bind (.move _) fun _ =>
    .bind (clearFrameCourse B 1) fun _ => addPropertyCourse B fuel property

/-- The course of a run, with the run in the form of `run_eq`. -/
def runCourse (fuel : Nat) (property : Formula) : Course (do
    if ← enter B fuel property then
      loop B config fuel
    else
      report B .info "property fails in an initial state"
      conclude .invalid) :=
  .bind (enterCourse B fuel property) fun _ => .branch (loopCourse B config fuel)
    (.bind (.move _) fun _ => .move _)

end Invariance.Search
