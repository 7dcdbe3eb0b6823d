import Invariance.Search.Push

/-!
Rounds. A round drains the agenda. If every member of the frame was staged, the frame is an
inductive invariant; otherwise the frame is built anew from the staged obligations, one step
beyond twice the index, and the next round begins.
-/

namespace Invariance.Search

variable {S σ μ : Type} (B : Backend S σ μ) (config : Config)

/-- Pops and pushes until nothing waits or the property is disproved. Each pop takes one unit of
fuel, and what is left is the answer. -/
def drain : (fuel : Nat) → SearchM σ Nat
  | 0 => throw .outOfFuel
  | fuel + 1 => do
      let s ← state
      if s.agenda.isEmpty || s.lineage.propertyInvalid then
        return fuel + 1
      else
        let ob ← pop
        if (← push B config ob) = .refined then
          enqueue B ob
        drain fuel

def graphName (index : Nat) : String := s!"dependency.{index}.dot"

def saveGraph : SearchM σ Unit := do
  let s ← state
  act (B.reports.saveGraph (graphName s.index) s.lineage.dot)
  report B .debug "wrote dependency graph" fun s _ => [("path", .text (graphName s.index))]

def drainFrame (fuel : Nat) : SearchM σ Nat := do
  let fuel ← drain B config fuel
  if config.saveGraphs then
    saveGraph B
  return fuel

/-- Rewrites every stored formula after a sweep of the term store, and drops the obligations that
lost a formula or their refutation. -/
def relocate (r : Relocation) : SearchM σ Unit := do
  unless (← state).staged.isEmpty do
    Action.violate .relocatedWhileStaged
  change fun s => { s with frame := s.frame.relocate r }
  let (lost, agenda) ← Action.ofExcept ((← state).agenda.relocate r)
  let kept ← agenda.bySlot.filterM fun ob => do
    return (← state).frame.contains (← negate B ob.counter)
  let agenda' ← Action.ofExcept (Agenda.ofList kept)
  let dropped := lost + (agenda.size - agenda'.size)
  change fun s => { s with agenda := agenda' }
  checkRefutations B
  change fun s => { s with lineage := s.lineage.relocate r }
  update (B.oracle.relocate r)
  update (B.reachability.relocate r)
  countFrame
  change fun s => { s with stats.queueSize := s.agenda.size }
  report B .debug "relocated search state" fun _ _ =>
    [("moved", .number r.moved), ("collected", .number r.collected),
      ("dropped", .number dropped)]

def restore (ob : Obligation) : SearchM σ Unit := do
  let refutation ← negate B ob.counter
  addToFrame B refutation .first
  addToFrame B refutation .intermediate
  enqueue B ob

/-- Builds the frame from the staged obligations. The candidates come after all refutations: one
that equals a later refutation must not stand in the way of its registration. -/
def rebuild : SearchM σ Unit := do
  let staged := (← state).staged
  change fun s => { s with staged := [] }
  staged.forM (restore B)
  change fun s =>
    { s with frame := staged.foldl (fun frame ob => frame.insert ob.forward) s.frame }
  countFrame
  change fun s => { s with stats.framePushed := 0 }
  checkRefutations B
  let index ← checkedAdd B (← state).index (← state).depth
  change fun s => { s with index, stats.frameIndex := index }

def deepen : SearchM σ Unit := do
  change fun s => { s with agenda := .empty, stats.queueSize := 0 }
  let size := (← state).frame.size
  let depth ← checkedAdd B (← state).index 1
  change fun s => { s with depth }
  clearFrame B depth
  change fun s => { s with stats.inductionDepth := depth }
  report B .info "extending trace" fun s _ =>
    [("frame", .number s.index), ("depth", .number depth), ("pushed", .number s.staged.length),
      ("frame_size", .number size)]

def showInvariant : SearchM σ Unit := do
  if config.showInvariant then
    (← state).frame.toList.forM fun f =>
      report B .info "invariant" fun _ text => [("formula", .text (text f))]

def atBound (s : Search) : Bool := 0 < config.maxFrames && config.maxFrames ≤ s.stats.rounds

def advance : SearchM σ Bool := do
  deepen B
  let s ← state
  if atBound config s then
    report B .info "frame bound reached" fun s _ => [("rounds", .number s.stats.rounds)]
    return false
  else
    rebuild B
    match ← act B.oracle.sweep with
    | none => return true
    | some r =>
        relocate B r
        return true

def rounds : (bound fuel : Nat) → SearchM σ Outcome
  | 0, _ => throw .outOfFuel
  | bound + 1, fuel => do
      let fuel ← drainFrame B config fuel
      change fun s => { s with stats.rounds := s.stats.rounds + 1 }
      let s ← state
      if s.lineage.propertyInvalid then
        return .invalid
      else if s.frame.size = s.staged.length then
        showInvariant B config
        return .valid
      else
        if ← advance B config then
          rounds bound fuel
        else
          return .interrupted

/-- Registers a property, or each conjunct of it, as a literal, and says whether all of them hold
initially; `fuel` exceeds the nesting of conjunctions. -/
def addProperty : (fuel : Nat) → (p : Formula) → SearchM σ Bool
  | 0, _ => throw .outOfFuel
  | fuel + 1, p => do
      match ← ask (fun w => B.terms.conjuncts w p) with
      | some conjuncts => conjuncts.allM (addProperty fuel)
      | none =>
          let negation ← negate B p
          match ← act (B.oracle.queryInit negation) with
          | .unsat =>
              unless (← state).frame.contains p do
                addToFrame B p .first
                addToFrame B p .intermediate
                enqueue B { forward := p, counter := negation, depth := 0, score := .zero }
              bump negation
              change fun s => { s with lineage := s.lineage.addProperty p }
              return true
          | .sat none => Action.fail (.missingWitness "an initial-state model")
          | .sat (some model) =>
              report B .debug "property falsified at init" fun _ text =>
                [("property", .text (text p))]
              update (B.recorder.record model)
              change fun s =>
                { s with lineage := (s.lineage.addProperty p).markPropertyInvalid }
              return false
          | .unknown => Action.fail (.solverUnknown "initial-state query")

def conclude (outcome : Outcome) : SearchM σ Outcome := do
  change fun s => { s with outcome := some outcome }
  return outcome

/-- Checks a property on the system that the backend has loaded. There are fewer than `fuel` rounds,
and all of them together make fewer than `fuel` pops, or else the search stops without an answer. -/
def run (fuel : Nat) (property : Formula) : SearchM σ Outcome := do
  act (B.terms.validate property)
  act B.reachability.init
  change fun s => { s with index := 0, depth := 1 }
  clearFrame B 1
  if ← addProperty B fuel property then
    report B .info "starting IC3 search" fun s _ =>
      [("properties", .number s.lineage.properties.size)]
    let result ← Action.attempt (rounds B config fuel fuel)
    change fun s => { s with staged := [] }
    let outcome ← Action.ofAttempt result
    report B .info "IC3 search done" fun s _ =>
      [("outcome", .text outcome.render), ("rounds", .number s.stats.rounds)]
    conclude outcome
  else
    report B .info "property fails in an initial state"
    conclude .invalid

end Invariance.Search
