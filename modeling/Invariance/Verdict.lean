/-!
What a solver says of one query, and what the search says of a whole property.
-/

namespace Invariance

inductive Verdict where
  | sat | unsat | unknown
  deriving DecidableEq, Inhabited

def Verdict.render : Verdict → String
  | .sat => "Sat"
  | .unsat => "Unsat"
  | .unknown => "Unknown"

/-- `valid`: the frame became an inductive invariant. `invalid`: the property was disproved.
`interrupted`: the bound on rounds came first. The search itself never answers `unknown`. -/
inductive Outcome where
  | valid | invalid | interrupted | unknown
  deriving DecidableEq, Inhabited

def Outcome.render : Outcome → String
  | .valid => "valid"
  | .invalid => "invalid"
  | .interrupted => "interrupted"
  | .unknown => "unknown"

end Invariance
