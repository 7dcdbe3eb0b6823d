import Invariance.FiniteState.TransitionSystem
import Invariance.Formula.Relocation

/-!
The terms over the states of one system. Every term is stored once, so structurally equal terms
are one formula. Terms for sets of states are canonical: negation is complement and disjunction is
union. A step term asserts a formula at one step of a path; such terms only serve to build
counterexamples, and a sweep drops them and closes the gaps.
-/

namespace Invariance.FiniteState

inductive Term where
  | states (s : StateSet)
  | conj (fs : List Formula)
  | atStep (f : Formula) (step : Nat)
  deriving DecidableEq

def Term.isStep : Term → Bool
  | .atStep _ _ => true
  | _ => false

structure Universe where
  size : Nat
  terms : Array Term := #[]
  deriving Inhabited

namespace Universe

def length (u : Universe) : Nat := u.terms.size

def isEmpty (u : Universe) : Bool := u.terms.isEmpty

def stepTerms (u : Universe) : Nat := u.terms.toList.countP Term.isStep

def lookup (u : Universe) (t : Term) : (bound : Nat) → Option Formula
  | 0 => none
  | bound + 1 => if u.terms[bound]? = some t then some ⟨bound⟩ else lookup u t bound

def intern (u : Universe) (t : Term) : Formula × Universe :=
  match u.lookup t u.length with
  | some f => (f, u)
  | none => (⟨u.length⟩, { u with terms := u.terms.push t })

def term (u : Universe) (f : Formula) : Except SystemError Term :=
  match u.terms[f.id]? with
  | some t => .ok t
  | none => .error (.unknownFormula f)

def ofSet (u : Universe) (s : StateSet) : Except Violation (Formula × Universe) :=
  if s.size = u.size then .ok (u.intern (.states s)) else .error (.foreignSet s.size u.size)

def ofStates (u : Universe) (states : List Nat) : Except Violation (Formula × Universe) := do
  u.ofSet (← StateSet.ofStates u.size states)

def conj (u : Universe) (fs : List Formula) : Formula × Universe := u.intern (.conj fs)

def atStep (u : Universe) (f : Formula) (step : Nat) : Formula × Universe :=
  u.intern (.atStep f step)

def evalWithin (u : Universe) : (bound : Nat) → Formula → Checked StateSet
  | 0, f => .refuse (.cyclicFormula f)
  | bound + 1, f =>
      match u.term f with
      | .error e => .refuse e
      | .ok (.states s) => .ok s
      | .ok (.conj fs) => do
          Checked.ofExcept (StateSet.allocatable u.size)
          fs.foldlM (fun acc g => do Checked.ofExcept (acc.inter (← evalWithin u bound g)))
            (.full u.size)
      | .ok (.atStep _ _) => .refuse (.notAStateFormula f)

/-- The states in which a formula holds. Nesting that does not come back to a formula is no deeper
than the number of terms. -/
def eval (u : Universe) (f : Formula) : Checked StateSet :=
  u.evalWithin (u.length + 1) f

def stepFormula (u : Universe) (f : Formula) : Checked (StateSet × Nat) :=
  match u.term f with
  | .error e => .refuse e
  | .ok (.atStep g step) => do return (← u.eval g, step)
  | .ok _ => .refuse (.notAStepFormula f)

def negate (u : Universe) (f : Formula) : Except Violation (Formula × Universe) :=
  match u.eval f with
  | .ok s => u.ofSet s.complement
  | .error (.error e) => .error (.cannotNegate f e.message)
  | .error (.violation v) => .error v

def disjoin (u : Universe) (f g : Formula) : Except Violation (Formula × Universe) :=
  match u.eval f, u.eval g with
  | .ok s, .ok t => do u.ofSet (← s.union t)
  | .error (.violation v), _ => .error v
  | _, .error (.violation v) => .error v
  | .error (.error e), _ => .error (.cannotDisjoin e.message)
  | _, .error (.error e) => .error (.cannotDisjoin e.message)

def conjuncts (u : Universe) (f : Formula) : Option (List Formula) :=
  match u.term f with
  | .ok (.conj fs) => some fs
  | _ => none

def displayWithin (u : Universe) : (bound : Nat) → Formula → String
  | 0, f => f.render
  | bound + 1, f =>
      match u.term f with
      | .ok (.states s) => s.render
      | .ok (.conj fs) => "(and " ++ " ".intercalate (fs.map (displayWithin u bound)) ++ ")"
      | .ok (.atStep g step) => displayWithin u bound g ++ "@" ++ toString step
      | .error _ => f.render

def display (u : Universe) (f : Formula) : String := u.displayWithin (u.length + 1) f

def survivor (r : Relocation) : Term → Option Term
  | .states s => some (.states s)
  | .conj fs => (fs.mapM r.apply).map .conj
  | .atStep _ _ => none

def sweepTerm (acc : Relocation × Array Term) (entry : Term × Nat) : Relocation × Array Term :=
  match survivor acc.1 entry.1 with
  | none => (acc.1.collect ⟨entry.2⟩, acc.2)
  | some t =>
      (if acc.2.size = entry.2 then acc.1 else acc.1.move ⟨entry.2⟩ ⟨acc.2.size⟩, acc.2.push t)

/-- Drops every step term and every conjunction that mentions one, and renumbers the rest without
a gap. -/
def sweep (u : Universe) : Relocation × Universe :=
  let (r, terms) := u.terms.toList.zipIdx.foldl sweepTerm ({}, #[])
  (r, { u with terms })

end Universe

end Invariance.FiniteState
