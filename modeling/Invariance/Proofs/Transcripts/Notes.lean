import Invariance.Engine
import Invariance.Proofs.Courses

/-!
What a query asks of its backend. A noted backend does what the backend does and notes each call
that can fail, the latest first. The transcript of a query is the list of these notes.
-/

namespace Invariance

def faultOf {α : Type} : Except Fault α → Option Fault
  | .ok _ => none
  | .error fault => some fault

inductive Note (μ : Type) where
  | negated (f : Formula) (answer : Except Fault Formula)
  | joined (f g : Formula) (answer : Except Fault Formula)
  | registered (f : Formula) (role : Role) (answer : Except Fault Unit)
  | reset (depth : Nat) (answer : Except Fault Unit)
  | checked (f : Formula) (answer : Except Fault (InductionAnswer μ))
  | learned (frame : Nat) (counter : Formula) (answer : Except Fault Formula)
  | swept (answer : Except Fault (Option Relocation))
  /-- `trace` is the counter-trace that is at hand when the call returns. -/
  | searched (first last : Nat) (counter : Formula) (answer : Except Fault Bool)
      (trace : List Formula)
  /-- Any other call. Of these only the failure is noted. -/
  | other (fault : Option Fault)

namespace Note

variable {μ : Type}

def fault? : Note μ → Option Fault
  | negated _ answer => faultOf answer
  | joined _ _ answer => faultOf answer
  | registered _ _ answer => faultOf answer
  | reset _ answer => faultOf answer
  | checked _ answer => faultOf answer
  | learned _ _ answer => faultOf answer
  | swept answer => faultOf answer
  | searched _ _ _ answer _ => faultOf answer
  | other fault => fault

def isReset : Note μ → Bool
  | reset .. => true
  | _ => false

def opposites? : Note μ → Option (Formula × Formula)
  | negated f (.ok g) => some (f, g)
  | _ => none

def first? : Note μ → Option Formula
  | registered f .first (.ok _) => some f
  | _ => none

def proved? : Note μ → Option Formula
  | checked f (.ok .unsat) => some f
  | _ => none

/-- A formula that was checked and not found inductive. -/
def unproved? : Note μ → Option Formula
  | checked _ (.ok .unsat) => none
  | checked f (.ok _) => some f
  | _ => none

def counter? : Note μ → Option Formula
  | checked _ (.ok (.sat counter _)) => counter
  | _ => none

/-- A formula that can enter the frame without being registered: one learnt forward, or one
weakened by an interpolant. -/
def guess? : Note μ → Option Formula
  | joined _ _ (.ok f) => some f
  | learned _ _ (.ok f) => some f
  | _ => none

def relocation? : Note μ → Option Relocation
  | swept (.ok r) => r
  | _ => none

def resetDepth? : Note μ → Option Nat
  | reset depth _ => some depth
  | _ => none

def isLearned : Note μ → Bool
  | learned _ _ (.ok _) => true
  | _ => false

def window? : Note μ → Option (Nat × Nat)
  | searched first last _ _ _ => some (first, last)
  | _ => none

/-- The length of a counter-trace to a counter-state that was found reachable. -/
def traceLength : Note μ → Nat
  | searched _ _ _ (.ok true) trace => trace.length
  | _ => 0

/-- Such a counter-trace ends at a step that was looked at. -/
def hits : Note μ → Bool
  | searched first last _ (.ok true) trace => first < trace.length && trace.length ≤ last + 1
  | _ => true

end Note

section

variable {S σ μ ν ε α : Type}

/-- Does what `act` does and notes its answer. -/
@[irreducible] def noting (fault : ε → Fault) (note : Except Fault α → σ → ν)
    (act : EStateM ε σ α) : EStateM ε (σ × List ν) α := fun (w, notes) =>
  match act w with
  | .ok a w => .ok a (w, note (.ok a) w :: notes)
  | .error e w => .error e (w, note (.error (fault e)) w :: notes)

def Terms.noted (T : Terms σ) : Terms (σ × List (Note μ)) where
  negate f := noting .violation (fun answer _ => .negated f answer) (T.negate f)
  disjoin f g := noting .violation (fun answer _ => .joined f g answer) (T.disjoin f g)
  conjuncts w f := T.conjuncts w.1 f
  validate f := noting id (fun answer _ => .other (faultOf answer)) (T.validate f)
  display w f := T.display w.1 f

def Oracle.noted (O : Oracle σ μ) : Oracle (σ × List (Note μ)) μ where
  register f role := noting id (fun answer _ => .registered f role answer) (O.register f role)
  reset depth := noting id (fun answer _ => .reset depth answer) (O.reset depth)
  checkInductive f := noting id (fun answer _ => .checked f answer) (O.checkInductive f)
  learnForward frame g :=
    noting id (fun answer _ => .learned frame g answer) (O.learnForward frame g)
  interpolate f := noting id (fun answer _ => .other (faultOf answer)) (O.interpolate f)
  queryInit f := noting id (fun answer _ => .other (faultOf answer)) (O.queryInit f)
  sweep := noting id (fun answer _ => .swept answer) O.sweep
  relocate r w := (O.relocate r w.1, w.2)

def TraceSolver.noted (T : TraceSolver σ μ) : TraceSolver (σ × List (Note μ)) μ where
  ensureDepth depth w := (T.ensureDepth depth w.1, w.2)
  depth w := T.depth w.1
  push w := (T.push w.1, w.2)
  pop := noting .violation (fun answer _ => .other (faultOf answer)) T.pop
  assert f := noting id (fun answer _ => .other (faultOf answer)) (T.assert f)
  check := noting id (fun answer _ => .other (faultOf answer)) T.check
  model := noting id (fun answer _ => .other (faultOf answer)) T.model

def ReachabilityChecker.noted (R : ReachabilityChecker σ μ) :
    ReachabilityChecker (σ × List (Note μ)) μ where
  init := noting id (fun answer _ => .other (faultOf answer)) R.init
  check first last g model :=
    noting id (fun answer w => .searched first last g answer (R.counterTrace w))
      (R.check first last g model)
  counterTrace w := R.counterTrace w.1
  clear w := (R.clear w.1, w.2)
  relocate r w := (R.relocate r w.1, w.2)

def Recorder.noted (R : Recorder σ μ) : Recorder (σ × List (Note μ)) μ where
  atStep f k := noting .violation (fun answer _ => .other (faultOf answer)) (R.atStep f k)
  record model w := (R.record model w.1, w.2)

def Reports.noted (R : Reports σ) : Reports (σ × List (Note μ)) where
  report e w := (R.report e w.1, w.2)
  saveGraph name lines :=
    noting id (fun answer _ => .other (faultOf answer)) (R.saveGraph name lines)

def Backend.noted (B : Backend S σ μ) : Backend S (σ × List (Note μ)) μ where
  machine := B.machine
  terms := B.terms.noted
  oracle := B.oracle.noted
  solver := B.solver.noted
  reachability := B.reachability.noted
  recorder := B.recorder.noted
  reports := B.reports.noted
  load sys := noting id (fun answer _ => .other (faultOf answer)) (B.load sys)

def Engine.noted (e : Engine σ) : Engine (σ × List (Note μ)) :=
  { search := e.search, world := (e.world, []) }

/-- What a query asks of its backend, and what it is told. -/
def Engine.transcript (B : Backend S σ μ) (config : Config) (fuel : Nat) (system : S)
    (property : Formula) (e : Engine σ) : List (Note μ) :=
  ((Engine.query B.noted config fuel system property).final e.noted).world.2

end

end Invariance
