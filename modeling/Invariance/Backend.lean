import Invariance.Event
import Invariance.Frame
import Invariance.Machine

/-!
What the search needs from outside. It decides nothing itself: a backend makes terms, answers
induction queries, decides bounded reachability, solves for counterexample paths and records the
trace. All of this works on one state `σ`; a model of the solvers has type `μ` and a system to be
checked has type `S`.
-/

namespace Invariance

inductive InductionAnswer (μ : Type) where
  | unsat
  | sat (generalization : Option Formula) (model : Option μ)
  | unknown

inductive InitAnswer (μ : Type) where
  | unsat
  | sat (model : Option μ)
  | unknown

structure Terms (σ : Type) where
  /-- The negation of a negation is the formula itself. -/
  negate : Formula → Step σ Formula
  disjoin : Formula → Formula → Step σ Formula
  conjuncts : σ → Formula → Option (List Formula)
  validate : Formula → Action σ Unit := fun _ => pure ()
  display : σ → Formula → String := fun _ f => f.render

structure Oracle (σ μ : Type) extends Registry σ where
  /-- Is the formula inductive relative to those registered? `unsat` says yes. -/
  checkInductive : Formula → Action σ (InductionAnswer μ)
  /-- A formula that holds in all states reachable at a frame and refutes the counter-state. -/
  learnForward : Nat → Formula → Action σ Formula
  interpolate : Formula → Action σ Formula
  queryInit : Formula → Action σ (InitAnswer μ)
  sweep : Action σ (Option Relocation)
  relocate : Relocation → σ → σ

structure TraceSolver (σ μ : Type) where
  ensureDepth : Nat → σ → σ
  depth : σ → Nat
  push : σ → σ
  pop : Step σ Unit
  assert : Formula → Action σ Unit
  check : Action σ Verdict
  model : Action σ μ

structure ReachabilityChecker (σ μ : Type) where
  init : Action σ Unit
  check : Nat → Nat → Formula → μ → Action σ Bool
  counterTrace : σ → List Formula
  clear : σ → σ
  relocate : Relocation → σ → σ

structure Recorder (σ μ : Type) where
  atStep : Formula → Nat → Step σ Formula
  record : μ → σ → σ

structure Reports (σ : Type) where
  report : Event → σ → σ
  saveGraph : String → List String → Action σ Unit

structure Backend (S σ μ : Type) where
  machine : Machine := .word64
  terms : Terms σ
  oracle : Oracle σ μ
  solver : TraceSolver σ μ
  reachability : ReachabilityChecker σ μ
  recorder : Recorder σ μ
  reports : Reports σ
  load : S → Action σ Unit

end Invariance
