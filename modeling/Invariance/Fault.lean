import Invariance.Formula
import Invariance.Listing
import Invariance.Verdict

/-!
The ways a computation can end without a result. An error is an answer that a caller may get; a
violation is a broken contract and stops everything; running out of fuel says nothing about the
question. The effects of the library are state transformers that keep their state in all three.
-/

namespace Invariance

inductive Violation where
  | alreadyQueued (f : Formula)
  | emptyAgenda
  | emptySlot
  | indexOutOfRange (size index : Nat)
  | alreadyInFrame (f : Formula)
  | alreadyIntermediate (f : Formula)
  | alreadyInvalid (f : Formula)
  | reachableWithoutTrace
  | extensionWithoutTrace
  | traceBeforeFrame
  | markedBeforeFrame (f : Formula) (frame active : Nat)
  | traceNotFalsifying (f : Formula) (frame : Nat) (verdict : Verdict)
  | notRefuted (f : Formula)
  | refutationLost (f : Formula)
  | relocatedWhileStaged
  | differentSizes (left right : Nat)
  | foreignSet (left right : Nat)
  | stateOutOfRange (state : Nat)
  | noPredecessor (layer : List Nat) (state : Nat)
  | cannotNegate (f : Formula) (reason : String)
  | cannotDisjoin (reason : String)
  | baseScope
  | overflow
  | capacity
  deriving DecidableEq

def unequal (claim left right : String) : String :=
  s!"assertion `left == right` failed: {claim}\n  left: {left}\n right: {right}"

def Violation.message : Violation → String
  | .alreadyQueued f => s!"obligation for {f} is already queued"
  | .emptyAgenda => "pop from an empty obligation queue"
  | .emptySlot => "heap entry points at an empty slot"
  | .indexOutOfRange size index =>
      s!"index out of bounds: the len is {size} but the index is {index}"
  | .alreadyInFrame f => s!"formula {f} is already in the induction frame"
  | .alreadyIntermediate f => s!"formula {f} is already registered as intermediate"
  | .alreadyInvalid f => s!"formula {f} is already marked invalid"
  | .reachableWithoutTrace => "reachable verdict without a counter-trace"
  | .extensionWithoutTrace => "extension without a counter-trace"
  | .traceBeforeFrame => "counter-trace ends before the active frame"
  | .markedBeforeFrame f frame active =>
      s!"formula {f} marked invalid at frame {frame} before the active frame {active}"
  | .traceNotFalsifying f frame verdict =>
      unequal s!"counter-trace does not falsify {f} at frame {frame}" verdict.render
        Verdict.sat.render
  | .notRefuted f => s!"obligation for {f} queued without its refutation in the frame"
  | .refutationLost f => s!"queued obligation for {f} lost its refutation from the frame"
  | .relocatedWhileStaged => "relocation while obligations are staged for the next frame"
  | .differentSizes left right =>
      unequal "state sets of different systems" (toString left) (toString right)
  | .foreignSet left right =>
      unequal "state set of a different system" (toString left) (toString right)
  | .stateOutOfRange state => s!"state {state} out of range"
  | .noPredecessor layer state =>
      s!"internal error: entered unreachable code: layer {braced layer} has no predecessor of "
        ++ s!"state {state}"
  | .cannotNegate f reason => s!"cannot negate {f}: {reason}"
  | .cannotDisjoin reason => s!"cannot build disjunction: {reason}"
  | .baseScope => "pop of the base scope"
  | .overflow => "attempt to add with overflow"
  | .capacity => "capacity overflow"

inductive CheckError where
  | solver (message : String)
  | solverUnknown (context : String)
  | missingWitness (context : String)
  | reachability (message : String)
  | backend (message : String)
  | noQuery
  | output (message : String)
  deriving DecidableEq

def CheckError.message : CheckError → String
  | .solver message => s!"solver error: {message}"
  | .solverUnknown context => s!"solver returned unknown during {context}"
  | .missingWitness context => s!"solver answered SAT without {context}"
  | .reachability message => s!"reachability error: {message}"
  | .backend message => s!"backend error: {message}"
  | .noQuery => "no query has been run"
  | .output message => s!"io error: {message}"

inductive Fault where
  | error (e : CheckError)
  | violation (v : Violation)
  | outOfFuel
  deriving DecidableEq

theorem bind_eq_ok {ε α β : Type} {x : Except ε α} {f : α → Except ε β} {b : β} :
    x >>= f = .ok b ↔ ∃ a, x = .ok a ∧ f a = .ok b := by
  cases x with
  | error e => exact ⟨nofun, fun ⟨_, h, _⟩ => nomatch h⟩
  | ok a => exact ⟨fun h => ⟨a, rfl, h⟩, fun ⟨_, h, h'⟩ => by cases h; exact h'⟩

abbrev Step (σ α : Type) := EStateM Violation σ α

/-- An effect on `σ` that may fail as well; what it did to the state before failing stays. -/
abbrev Action (σ α : Type) := EStateM Fault σ α

namespace Action

variable {σ τ α : Type}

def fail (e : CheckError) : Action σ α := throw (.error e)

def violate (v : Violation) : Action σ α := throw (.violation v)

def ofExcept : Except Violation α → Action σ α
  | .ok a => pure a
  | .error v => violate v

def ofStep (step : Step σ α) : Action σ α := fun s =>
  match step s with
  | .ok a s => .ok a s
  | .error v s => .error (.violation v) s

def within (part : τ → σ) (replace : σ → τ → τ) (act : Action σ α) : Action τ α := fun t =>
  match act (part t) with
  | .ok a s => .ok a (replace s t)
  | .error fault s => .error fault (replace s t)

def attempt (act : Action σ α) : Action σ (Except CheckError α) := fun s =>
  match act s with
  | .ok a s => .ok (.ok a) s
  | .error (.error e) s => .ok (.error e) s
  | .error fault s => .error fault s

def ofAttempt : Except CheckError α → Action σ α
  | .ok a => pure a
  | .error e => fail e

end Action

end Invariance
