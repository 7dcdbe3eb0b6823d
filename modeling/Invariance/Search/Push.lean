import Invariance.Search.Extension

/-!
Pushing one obligation. If its refutation is inductive, the obligation is staged for the next
frame. If not, the counter-state behind the failure is either reachable, which disproves the
property, or it is refuted by two new formulas and the obligation has to be tried again.
-/

namespace Invariance.Search

variable {S σ μ : Type} (B : Backend S σ μ)

inductive Push where
  | staged | refined | failed
  deriving DecidableEq

/-- The steps that have not been checked for reachability before the frame `index` is reached with
induction depth `depth`; never one before the initial step. -/
def window (M : Machine) (index depth : Nat) : Except Violation (Nat × Nat) := do
  return ((← M.add index 1) - depth, index)

def carry (ob : Obligation) (forward : Formula) : SearchM σ Push := do
  change fun s => { s with staged := s.staged ++ [{ ob with forward, score := .zero }] }
  act (B.oracle.register forward .first)
  act (B.oracle.register forward .intermediate)
  change fun s => { s with stats.framePushed := s.staged.length }
  return .staged

def weaken (ob : Obligation) (refutation : Formula) : SearchM σ Formula := do
  let interpolant ← act (B.oracle.interpolate refutation)
  change fun s => { s with frame := s.frame.erase ob.forward }
  let weaker ← step (B.terms.disjoin ob.forward interpolant)
  change fun s => { s with frame := s.frame.insert weaker }
  countFrame
  checkRefutations B
  report B .trace "weakened by interpolant" fun _ text => [("f_fwd", .text (text weaker))]
  return weaker

def stage (ob : Obligation) (refutation : Formula) : SearchM σ Push := do
  report B .trace "pushing F_fwd" fun s text =>
    [("frame", .number s.index), ("f_fwd", .text (text ob.forward))]
  match ← act (B.oracle.checkInductive ob.forward) with
  | .unsat => carry B ob ob.forward
  | .unknown => Action.fail (.solverUnknown "induction check")
  | .sat _ _ => do carry B ob (← weaken B ob refutation)

def refine (ob : Obligation) (refutation counter : Formula) : SearchM σ Push := do
  let backward ← negate B counter
  report B .trace "backward learnt" fun _ text => [("learnt", .text (text backward))]
  let forward ← act (B.oracle.learnForward (← state).index counter)
  report B .trace "forward learnt" fun _ text => [("learnt", .text (text forward))]
  addToFrame B backward .first
  change fun s => { s with frame := s.frame.insert forward }
  countFrame
  let s ← state
  let origin := { parent := refutation, refutes := counter, depth := s.depth }
  change fun s => { s with lineage := s.lineage.addOrigin backward origin }
  let depth ← checkedAdd B ob.depth s.depth
  report B .debug "learnt refinement" fun s _ =>
    [("frame", .number s.index), ("depth", .number depth)]
  enqueue B { forward, counter, depth, score := .zero }
  return .refined

def answerCounter (config : Config) (ob : Obligation) (refutation counter : Formula) (model : μ) :
    SearchM σ Push := do
  report B .trace "generalization" fun _ text => [("g", .text (text counter))]
  let s ← state
  let (first, last) ← Action.ofExcept (window B.machine s.index s.depth)
  let reachable ← act (B.reachability.check first last counter model)
  report B .debug "reachability check" fun _ _ =>
    [("start", .number first), ("end", .number last),
      ("status", .text (if reachable then "Reachable" else "Unreachable"))]
  if reachable then
    failInduction B config refutation
    return .failed
  else
    refine B ob refutation counter

def push (config : Config) (ob : Obligation) : SearchM σ Push := do
  report B .trace "pushing F_cex" fun s text =>
    [("frame", .number s.index), ("f_cex", .text (text ob.counter))]
  let refutation ← negate B ob.counter
  match ← act (B.oracle.checkInductive refutation) with
  | .unsat => stage B ob refutation
  | .unknown => Action.fail (.solverUnknown "induction check")
  | .sat none _ => Action.fail (.missingWitness "a generalization")
  | .sat (some _) none => Action.fail (.missingWitness "a counter-model")
  | .sat (some counter) (some model) => answerCounter B config ob refutation counter model

end Invariance.Search
