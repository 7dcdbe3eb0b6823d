import Invariance.Search

/-!
Following a counterexample backwards through the lineage. A reachable counter-state to the
induction of a formula gives a trace on which the formula is false. The formula was learnt to
refute a counter-state of its parent, so the same trace may go on to a state that falsifies the
parent, and so on up to a property.
-/

namespace Invariance.Search

variable {S σ μ : Type} (B : Backend S σ μ)

def assertFalseAt (f : Formula) (k : Nat) : SearchM σ Unit := do
  update (B.solver.ensureDepth k)
  let negation ← negate B f
  let constraint ← step (B.recorder.atStep negation k)
  act (B.solver.assert constraint)

def assertTrace : Nat → List Formula → SearchM σ Unit
  | _, [] => pure ()
  | k, f :: rest => do
      let constraint ← step (B.recorder.atStep f k)
      act (B.solver.assert constraint)
      assertTrace (k + 1) rest

def recordModel : SearchM σ Unit := do
  let model ← act B.solver.model
  update (B.recorder.record model)

/-- Goes from `f`, false at frame `k`, to its ancestors. Each step marks one more formula that
has an origin, so `bound` need only exceed the number of origins. -/
def climb : (bound : Nat) → (f : Formula) → (k : Nat) → SearchM σ Unit
  | 0, _, _ => throw .outOfFuel
  | bound + 1, f, k => do
      change fun s => { s with stats.maxCexDepth := max s.stats.maxCexDepth k }
      bump (← negate B f)
      let s ← state
      match s.lineage.origin? f with
      | none =>
          if s.lineage.isProperty f then
            let depth ← ask B.solver.depth
            report B .info "counterexample found" fun s _ =>
              [("depth", .number depth), ("frame", .number s.index)]
      | some origin =>
          let parent := origin.parent
          let k ← checkedAdd B k origin.depth
          unless s.lineage.isInvalid parent do
            assertFalseAt B parent k
            if (← act B.solver.check) = .sat then
              markInvalid parent k
              recordModel B
              report B .debug "extended counterexample" fun _ text =>
                [("formula", .text (text parent)), ("frame", .number k)]
              climb bound parent k
            else
              report B .debug "counterexample extension stopped" fun _ text =>
                [("formula", .text (text parent)), ("frame", .number k)]

def lastFrame (trace : List Formula) : SearchM σ Nat := do
  checkedAdd B (trace.length - 1) (← state).depth

def extendInScope (config : Config) (f : Formula) (trace : List Formula) : SearchM σ Unit := do
  assertTrace B 0 trace
  let k ← lastFrame B trace
  assertFalseAt B f k
  let verdict ← act B.solver.check
  unless verdict = .sat do
    Action.violate (.traceNotFalsifying f k verdict)
  recordModel B
  if config.extend then
    climb B ((← state).lineage.size + 1) f k

/-- Builds the counterexample on which `f` is false and follows it as far as it goes, in a scope
of its own that is closed again also after an error. -/
def extendFailure (config : Config) (f : Formula) : SearchM σ Unit := do
  let trace ← ask B.reachability.counterTrace
  if trace.isEmpty then
    Action.violate .extensionWithoutTrace
  let s ← state
  unless s.index < (← lastFrame B trace) do
    Action.violate .traceBeforeFrame
  let depth ← checkedAdd B s.index 1
  update (B.solver.ensureDepth depth)
  update B.solver.push
  let result ← Action.attempt (extendInScope B config f trace)
  step B.solver.pop
  Action.ofAttempt result

def failInduction (config : Config) (refutation : Formula) : SearchM σ Unit := do
  let trace ← ask B.reachability.counterTrace
  if trace.isEmpty then
    Action.violate .reachableWithoutTrace
  let k ← lastFrame B trace
  report B .debug "counter-state reachable" fun _ _ => [("frame", .number k)]
  markInvalid refutation k
  change fun s => { s with lineage := s.lineage.markPropertyInvalid }
  extendFailure B config refutation

end Invariance.Search
