import Invariance.FiniteState.InductionSolver
import Invariance.FiniteState.Reachability
import Invariance.Journal

/-!
The backend for systems with finitely many states. Formulas are sets of states, so every question
of the search has an exact answer. The universe of terms outlives the queries; everything else
starts afresh with each system that is loaded.
-/

namespace Invariance.FiniteState

structure Session where
  terms : Universe
  system : TransitionSystem
  forward : ForwardLearning := .negation
  /-- The number of step terms from which on the universe is swept; 0 stands for never. -/
  threshold : Nat := 1
  induction : InductionSolver := {}
  paths : PathSolver := {}
  reach : Reachability := {}
  trace : List Nat := []
  journal : Journal := {}

namespace Session

def ofUniverse (u : Universe) : Session := { terms := u, system := .blank 0 (Nat.zero_le _) }

def note (e : Event) (s : Session) : Session := { s with journal := s.journal.record e }

def ofChecked {α : Type} : Checked α → Action Session α
  | .ok a => pure a
  | .error flaw => throw flaw.toFault

def making (op : Universe → Except Violation (Formula × Universe)) : Step Session Formula :=
  fun s =>
    match op s.terms with
    | .ok (f, terms) => .ok f { s with terms }
    | .error v => .error v s

def sweep : StateM Session Relocation := fun s =>
  let (r, terms) := s.terms.sweep
  (r, note ⟨.debug, "collected term universe", fun _ =>
    [("live", .number terms.length), ("moved", .number r.moved),
      ("collected", .number r.collected)]⟩ { s with terms })

def load (system : TransitionSystem) : Action Session Unit := do
  let s ← get
  if system.size = s.terms.size then
    set { s with system, induction := {}, paths := {}, reach := {}, trace := [] }
  else
    throw (Flaw.error (.universeMismatch system.size s.terms.size)).toFault

def vocabulary : Terms Session where
  negate f := making (·.negate f)
  disjoin f g := making (·.disjoin f g)
  conjuncts s f := s.terms.conjuncts f
  validate f := do
    let _ ← ofChecked ((← get).terms.eval f)
  display s f := s.terms.display f

def checkInductive (M : Machine) (f : Formula) : Action Session (InductionAnswer (List Nat)) := do
  let s ← get
  match ← ofChecked (s.induction.check M s.system s.terms f) with
  | none =>
      modify (note ⟨.trace, "inductive", fun _ => [("depth", .number s.induction.depth)]⟩)
      return .unsat
  | some path =>
      let g ← Action.ofStep (making (·.ofStates (path.take 1)))
      modify (note ⟨.trace, "not inductive", fun _ =>
        [("depth", .number s.induction.depth), ("path", .text (bracketed path))]⟩)
      return .sat (some g) (some path)

def queryInit (f : Formula) : Action Session (InitAnswer (List Nat)) := do
  let s ← get
  let states ← ofChecked (s.terms.eval f)
  match (← Action.ofExcept (s.system.init.inter states)).first with
  | some x => return .sat (some [x])
  | none => return .unsat

def oracle (M : Machine) : Oracle Session (List Nat) where
  register f role := do
    let s ← get
    let induction ← ofChecked (s.induction.register s.terms f role)
    set { s with induction }
  reset depth := do
    if depth = 0 then
      Action.fail (.solver "induction depth must be positive")
    modify fun s => { s with induction := { depth } }
  checkInductive := checkInductive M
  learnForward frame g := do
    let s ← get
    let (f, terms) ← ofChecked (FiniteState.learnForward s.forward s.system s.terms frame g)
    set { s with terms }
    return f
  interpolate f := pure f
  queryInit := queryInit
  sweep := do
    let s ← get
    if s.threshold = 0 || s.terms.stepTerms < s.threshold then
      return none
    else
      let (r, s) := sweep.run s
      set s
      return some r
  relocate r s :=
    let induction := s.induction.relocate r
    note ⟨.debug, "oracle relocated", fun _ =>
      [("first", .number induction.first.length),
        ("intermediate", .number induction.intermediate.length)]⟩
      { s with induction, paths := s.paths.relocate r }

def solver (M : Machine) : TraceSolver Session (List Nat) where
  ensureDepth depth s := { s with paths := s.paths.ensureDepth depth }
  depth s := s.paths.depth
  push s := { s with paths := s.paths.push }
  pop := fun s =>
    match s.paths.pop with
    | .ok paths => .ok () { s with paths }
    | .error v => .error v s
  assert f := do
    let s ← get
    let paths ← ofChecked (s.paths.assert s.terms f)
    set { s with paths }
  check := do
    let s ← get
    let (steps, paths) ← ofChecked (s.paths.check M s.system s.terms)
    set { s with paths }
    modify (note ⟨.trace, "path check", fun _ =>
      [("steps", .number steps), ("sat", .flag paths.model.isSome)]⟩)
    return if paths.model.isSome then .sat else .unsat
  model := do
    match (← get).paths.model with
    | some path => return path
    | none => Action.fail (.missingWitness "a path model")

def checkReachable (first last : Nat) (g : Formula) : Action Session Bool := do
  let s ← get
  let (hit, reach) ← ofChecked (s.reach.find s.system s.terms first last g)
  set { s with reach }
  match hit with
  | none => return false
  | some (step, path) =>
      modify (note ⟨.trace, "counter-state reachable", fun _ =>
        [("step", .number step), ("path", .text (bracketed path))]⟩)
      let (cex, terms) ← Action.ofExcept (Reachability.pathFormulas s.terms path)
      modify fun s => { s with terms, reach := { s.reach with cex } }
      return true

def reachability : ReachabilityChecker Session (List Nat) where
  init := modify fun s => { s with reach := .init s.system }
  check first last g _ := checkReachable first last g
  counterTrace s := s.reach.cex
  clear s := { s with reach := { s.reach with cex := [] } }
  relocate r s := { s with reach := s.reach.relocate r }

def recorder : Recorder Session (List Nat) where
  atStep f k := making fun u => .ok (u.atStep f k)
  record path s := { s with trace := path }

def backend (M : Machine := .word64) : Backend TransitionSystem Session (List Nat) where
  machine := M
  terms := vocabulary
  oracle := oracle M
  solver := solver M
  reachability := reachability
  recorder := recorder
  reports := Journal.reports (·.journal) fun journal s => { s with journal }
  load := load

end Session

end Invariance.FiniteState
