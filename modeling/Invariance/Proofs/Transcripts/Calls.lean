import Invariance.Proofs.Transcripts.Erasing

/-!
Every call of a search, in full. Of most calls a transcript notes the failure alone; a log also
keeps what they were asked and told, so that it shows how a path was put together, in which scope,
and which call was the first to fail.
-/

namespace Invariance

inductive Call (μ : Type) where
  | loaded (answer : Except Fault Unit)
  | validated (f : Formula) (answer : Except Fault Unit)
  | negated (f : Formula) (answer : Except Fault Formula)
  | joined (f g : Formula) (answer : Except Fault Formula)
  | registered (f : Formula) (role : Role) (answer : Except Fault Unit)
  | reset (depth : Nat) (answer : Except Fault Unit)
  | checked (f : Formula) (answer : Except Fault (InductionAnswer μ))
  | learned (frame : Nat) (counter : Formula) (answer : Except Fault Formula)
  | interpolated (f : Formula) (answer : Except Fault Formula)
  | queried (f : Formula) (answer : Except Fault (InitAnswer μ))
  | swept (answer : Except Fault (Option Relocation))
  | begun (answer : Except Fault Unit)
  | searched (first last : Nat) (counter : Formula) (answer : Except Fault Bool)
  | pushed
  | popped (answer : Except Fault Unit)
  | asserted (f : Formula) (answer : Except Fault Unit)
  | solved (answer : Except Fault Verdict)
  | modelled (answer : Except Fault μ)
  | placed (f : Formula) (k : Nat) (answer : Except Fault Formula)
  | recorded (model : μ)
  | saved (answer : Except Fault Unit)

namespace Call

variable {μ : Type}

def fault? : Call μ → Option Fault
  | loaded answer => faultOf answer
  | validated _ answer => faultOf answer
  | negated _ answer => faultOf answer
  | joined _ _ answer => faultOf answer
  | registered _ _ answer => faultOf answer
  | reset _ answer => faultOf answer
  | checked _ answer => faultOf answer
  | learned _ _ answer => faultOf answer
  | interpolated _ answer => faultOf answer
  | queried _ answer => faultOf answer
  | swept answer => faultOf answer
  | begun answer => faultOf answer
  | searched _ _ _ answer => faultOf answer
  | pushed => none
  | popped answer => faultOf answer
  | asserted _ answer => faultOf answer
  | solved answer => faultOf answer
  | modelled answer => faultOf answer
  | placed _ _ answer => faultOf answer
  | recorded _ => none
  | saved answer => faultOf answer

/-- A call came back with this fault. -/
def Faulted (ℓ : List (Call μ)) (fault : Fault) : Prop := ∃ c ∈ ℓ, c.fault? = some fault

end Call

section

variable {S σ μ : Type}

def Terms.logged (T : Terms σ) : Terms (σ × List (Call μ)) where
  negate f := noting .violation (fun answer _ => Call.negated f answer) (T.negate f)
  disjoin f g := noting .violation (fun answer _ => Call.joined f g answer) (T.disjoin f g)
  conjuncts w f := T.conjuncts w.1 f
  validate f := noting id (fun answer _ => Call.validated f answer) (T.validate f)
  display w f := T.display w.1 f

def Oracle.logged (O : Oracle σ μ) : Oracle (σ × List (Call μ)) μ where
  register f role := noting id (fun answer _ => Call.registered f role answer) (O.register f role)
  reset depth := noting id (fun answer _ => Call.reset depth answer) (O.reset depth)
  checkInductive f := noting id (fun answer _ => Call.checked f answer) (O.checkInductive f)
  learnForward frame g :=
    noting id (fun answer _ => Call.learned frame g answer) (O.learnForward frame g)
  interpolate f := noting id (fun answer _ => Call.interpolated f answer) (O.interpolate f)
  queryInit f := noting id (fun answer _ => Call.queried f answer) (O.queryInit f)
  sweep := noting id (fun answer _ => Call.swept answer) O.sweep
  relocate r w := (O.relocate r w.1, w.2)

def TraceSolver.logged (T : TraceSolver σ μ) : TraceSolver (σ × List (Call μ)) μ where
  ensureDepth depth w := (T.ensureDepth depth w.1, w.2)
  depth w := T.depth w.1
  push w := (T.push w.1, .pushed :: w.2)
  pop := noting .violation (fun answer _ => Call.popped answer) T.pop
  assert f := noting id (fun answer _ => Call.asserted f answer) (T.assert f)
  check := noting id (fun answer _ => Call.solved answer) T.check
  model := noting id (fun answer _ => Call.modelled answer) T.model

def ReachabilityChecker.logged (R : ReachabilityChecker σ μ) :
    ReachabilityChecker (σ × List (Call μ)) μ where
  init := noting id (fun answer _ => Call.begun answer) R.init
  check first last g model :=
    noting id (fun answer _ => Call.searched first last g answer) (R.check first last g model)
  counterTrace w := R.counterTrace w.1
  clear w := (R.clear w.1, w.2)
  relocate r w := (R.relocate r w.1, w.2)

def Recorder.logged (R : Recorder σ μ) : Recorder (σ × List (Call μ)) μ where
  atStep f k := noting .violation (fun answer _ => Call.placed f k answer) (R.atStep f k)
  record model w := (R.record model w.1, .recorded model :: w.2)

def Reports.logged (R : Reports σ) : Reports (σ × List (Call μ)) where
  report e w := (R.report e w.1, w.2)
  saveGraph name lines := noting id (fun answer _ => Call.saved answer) (R.saveGraph name lines)

def Backend.logged (B : Backend S σ μ) : Backend S (σ × List (Call μ)) μ where
  machine := B.machine
  terms := B.terms.logged
  oracle := B.oracle.logged
  solver := B.solver.logged
  reachability := B.reachability.logged
  recorder := B.recorder.logged
  reports := B.reports.logged
  load sys := noting id (fun answer _ => Call.loaded answer) (B.load sys)

open Action in
theorem Backend.logged_over (B : Backend S σ μ) : B.logged.Over Prod.fst B where
  machine := rfl
  negate _ := under_noting ..
  disjoin _ _ := under_noting ..
  conjuncts _ _ := rfl
  validate _ := under_noting ..
  display _ := rfl
  register _ _ := under_noting ..
  reset _ := under_noting ..
  checkInductive _ := under_noting ..
  learnForward _ _ := under_noting ..
  interpolate _ := under_noting ..
  queryInit _ := under_noting ..
  sweep := under_noting ..
  relocateOracle _ _ := rfl
  ensureDepth _ _ := rfl
  depth _ := rfl
  push _ := rfl
  pop := under_noting ..
  assert _ := under_noting ..
  check := under_noting ..
  model := under_noting ..
  init := under_noting ..
  search _ _ _ _ := under_noting ..
  counterTrace _ := rfl
  clear _ := rfl
  relocateReachability _ _ := rfl
  atStep _ _ := under_noting ..
  record _ _ := rfl
  report _ _ := rfl
  saveGraph _ _ := under_noting ..
  load _ := under_noting ..

namespace Search

/-- The calls of an effect of the search, the latest first. -/
def calls {α : Type} (action : SearchM (σ × List (Call μ)) α) (s : Search) (w : σ) :
    List (Call μ) :=
  (action.final (s, w, [])).2.2

end Search

namespace Engine

def logged (e : Engine σ) : Engine (σ × List (Call μ)) :=
  { search := e.search, world := (e.world, []) }

/-- The calls of a query, the latest first. -/
def queryCalls (B : Backend S σ μ) (config : Config) (fuel : Nat) (system : S) (property : Formula)
    (e : Engine σ) : List (Call μ) :=
  ((query B.logged config fuel system property).final e.logged).world.2

/-- The calls of a relocation, the latest first. -/
def relocateCalls (B : Backend S σ μ) (r : Relocation) (e : Engine σ) : List (Call μ) :=
  ((relocate B.logged r).final e.logged).world.2

end Engine

end

end Invariance
