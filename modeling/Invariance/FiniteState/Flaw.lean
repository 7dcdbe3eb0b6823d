import Invariance.Fault

/-!
Why a question about a system with finitely many states can go without an answer.
-/

namespace Invariance.FiniteState

inductive SystemError where
  | stateOutOfRange (state size : Nat)
  | emptySystem
  | tooManyStates (size : Nat)
  | universeMismatch (system terms : Nat)
  | unknownFormula (f : Formula)
  | notAStateFormula (f : Formula)
  | notAStepFormula (f : Formula)
  | cyclicFormula (f : Formula)
  deriving DecidableEq

def SystemError.message : SystemError → String
  | .stateOutOfRange state size => s!"state {state} out of range for a system of {size} states"
  | .emptySystem => "system has no states"
  | .tooManyStates size => s!"{size} states exceed the state id range"
  | .universeMismatch system terms =>
      s!"system has {system} states but the universe has {terms}"
  | .unknownFormula f => s!"unknown formula {f}"
  | .notAStateFormula f => s!"{f} is a step formula, expected a state formula"
  | .notAStepFormula f => s!"{f} is not a step formula"
  | .cyclicFormula f => s!"{f} contains itself"

inductive Flaw where
  | error (e : SystemError)
  | violation (v : Violation)
  deriving DecidableEq

def Flaw.toFault : Flaw → Fault
  | .error e => .error (.backend e.message)
  | .violation v => .violation v

abbrev Checked (α : Type) := Except Flaw α

namespace Checked

variable {α : Type}

def refuse (e : SystemError) : Checked α := .error (.error e)

def ofExcept (x : Except Violation α) : Checked α := x.mapError .violation

end Checked

end Invariance.FiniteState
