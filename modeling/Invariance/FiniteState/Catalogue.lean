import Invariance.FiniteState.Universe

/-!
The terms over the states of one system with an index of them. A term that is asked for is looked up
in the index and nowhere else, and a sweep builds the index anew from the terms it leaves.
-/

namespace Invariance.FiniteState

/-- The ways to ask for a formula. -/
inductive Request where
  | states (states : List Nat)
  | set (s : StateSet)
  | conj (fs : List Formula)
  | atStep (f : Formula) (step : Nat)
  | negate (f : Formula)
  | disjoin (f g : Formula)

def Request.args : Request → List Formula
  | .states _ => []
  | .set _ => []
  | .conj fs => fs
  | .atStep f _ => [f]
  | .negate f => [f]
  | .disjoin f g => [f, g]

namespace Universe

def make (u : Universe) : Request → Except Violation (Formula × Universe)
  | .states states => u.ofStates states
  | .set s => u.ofSet s
  | .conj fs => .ok (u.conj fs)
  | .atStep f step => .ok (u.atStep f step)
  | .negate f => u.negate f
  | .disjoin f g => u.disjoin f g

def setTerm (u : Universe) (s : StateSet) : Except Violation Term :=
  if s.size = u.size then .ok (.states s) else .error (.foreignSet s.size u.size)

/-- The term that a request comes to. -/
def wanted (u : Universe) : Request → Except Violation Term
  | .states states => do u.setTerm (← StateSet.ofStates u.size states)
  | .set s => u.setTerm s
  | .conj fs => .ok (.conj fs)
  | .atStep f step => .ok (.atStep f step)
  | .negate f =>
      match u.eval f with
      | .ok s => u.setTerm s.complement
      | .error (.error e) => .error (.cannotNegate f e.message)
      | .error (.violation v) => .error v
  | .disjoin f g =>
      match u.eval f, u.eval g with
      | .ok s, .ok t => do u.setTerm (← s.union t)
      | .error (.violation v), _ => .error v
      | _, .error (.violation v) => .error v
      | .error (.error e), _ => .error (.cannotDisjoin e.message)
      | _, .error (.error e) => .error (.cannotDisjoin e.message)

end Universe

structure Catalogue where
  store : Universe
  /-- The formula of each stored term, the newest term first. -/
  index : List (Term × Formula) := []

namespace Catalogue

def find (c : Catalogue) (t : Term) : Option Formula := c.index.lookup t

def intern (c : Catalogue) (t : Term) : Formula × Catalogue :=
  match c.find t with
  | some f => (f, c)
  | none =>
      let f : Formula := ⟨c.store.length⟩
      (f, ⟨{ c.store with terms := c.store.terms.push t }, (t, f) :: c.index⟩)

def make (c : Catalogue) (q : Request) : Except Violation (Formula × Catalogue) := do
  return c.intern (← c.store.wanted q)

def indexOf (terms : List Term) : List (Term × Formula) :=
  terms.zipIdx.foldl (fun index entry => (entry.1, ⟨entry.2⟩) :: index) []

def sweep (c : Catalogue) : Relocation × Catalogue :=
  let (r, store) := c.store.sweep
  (r, ⟨store, indexOf store.terms.toList⟩)

end Catalogue

end Invariance.FiniteState
