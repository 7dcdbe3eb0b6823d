import Invariance.Journal
import Invariance.Scripted.Sentences

/-!
A backend that understands nothing and plays a script. It answers each question as the script
says, fails where the script says, and keeps a list of the calls it got. With it every course that
a search can take can be brought about.
-/

namespace Invariance.Scripted

abbrev Model := List Formula

structure Script where
  /-- For a formula its successive answers; it is inductive when they are used up. -/
  inductions : List (Formula × List (InductionAnswer Model)) := []
  inits : List (Formula × InitAnswer Model) := []
  learn : List (Formula × Formula) := []
  interpolant : Option Formula := none
  reachable : List (Formula × List Formula) := []
  /-- The first of these that is asserted decides a check of the trace solver; with none of them
  asserted it is satisfiable. -/
  verdicts : List (Formula × Verdict) := []
  sweeps : List (Option Relocation) := []
  failures : List (String × Nat × CheckError) := []

structure Player where
  sentences : Sentences := {}
  script : Script := {}
  pending : List (Formula × List (InductionAnswer Model)) := []
  sweepsDone : Nat := 0
  counts : List (String × Nat) := []
  calls : Array String := #[]
  scopes : List (List Formula) := [[]]
  depth : Nat := 0
  cex : List Formula := []
  trace : Model := []
  journal : Journal := {}

namespace Player

def lookup {α : Type} (f : Formula) (entries : List (Formula × α)) : Option α :=
  (entries.find? (·.1 = f)).map (·.2)

def onSentences {α : Type} (x : StateM Sentences α) : StateM Player α := fun p =>
  let (a, sentences) := x p.sentences
  (a, { p with sentences })

def intern (t : Sentence) : StateM Player Formula := onSentences (Sentences.intern t)

def negate (f : Formula) : StateM Player Formula := onSentences (Sentences.negate f)

def text (p : Player) (f : Formula) : String := p.sentences.text f

def take (script : Script) (p : Player) : Player :=
  { p with script, pending := script.inductions, sweepsDone := 0, counts := [] }

def call (name : String) (words : Player → List String) : StateM Player (Option CheckError) :=
  fun p =>
    let n := (p.counts.lookup name).getD 0
    let failure := p.script.failures.find? fun entry => entry.1 = name ∧ entry.2.1 = n
    (failure.map (·.2.2),
      { p with
        calls := p.calls.push (" ".intercalate (name :: words p))
        counts := (name, n + 1) :: p.counts.filter (·.1 ≠ name) })

def ofState {ε α : Type} (x : StateM Player α) : EStateM ε Player α := fun p =>
  let (a, p) := x p
  .ok a p

def calling {α : Type} (name : String) (words : Player → List String) (next : StateM Player α) :
    Action Player α := do
  match ← ofState (call name words) with
  | some e => Action.fail e
  | none => ofState next

def telling (name : String) (words : Player → List String) (next : Player → Player)
    (p : Player) : Player :=
  next (call name words p).2

def answerInduction (f : Formula) : StateM Player (InductionAnswer Model) := fun p =>
  match lookup f p.pending with
  | some (answer :: rest) =>
      let pending := p.pending.map fun e => if e.1 = f then (f, rest) else e
      (answer, { p with pending })
  | _ => (.unsat, p)

def asserted (p : Player) : List Formula := p.scopes.reverse.flatten

def buildModel : StateM Player Model := do
  let hole ← intern (.atom "_")
  let p ← get
  let steps := p.asserted.filterMap fun f =>
    match p.sentences.term? f with
    | some (.atStep g step) => some (step, g)
    | _ => none
  let length := steps.foldl (fun n e => max n (e.1 + 1)) 0
  return (List.range length).map fun k => (steps.lookup k).getD hole

def answerSweep : StateM Player (Option Relocation) := fun p =>
  ((p.script.sweeps[p.sweepsDone]?).join, { p with sweepsDone := p.sweepsDone + 1 })

def roleName : Role → String
  | .first => "First"
  | .intermediate => "Intermediate"

def vocabulary : Terms Player where
  negate f := ofState (negate f)
  disjoin f g := ofState (intern (.disj f g))
  conjuncts p f := p.sentences.conjuncts f

def oracle : Oracle Player Model where
  register f role := calling "add" (fun p => [p.text f, roleName role]) (pure ())
  reset depth := calling "reset" (fun _ => [toString depth]) (pure ())
  checkInductive f := calling "check_inductive" (fun p => [p.text f]) (answerInduction f)
  learnForward frame g :=
    calling "learn_forward" (fun p => [toString frame, p.text g]) do
      match lookup g (← get).script.learn with
      | some f => return f
      | none => negate g
  interpolate f :=
    calling "interpolate" (fun p => [p.text f]) do
      match (← get).script.interpolant with
      | some i => return i
      | none => intern (.atom "I")
  queryInit f :=
    calling "query_at_init" (fun p => [p.text f]) do
      return (lookup f (← get).script.inits).getD .unsat
  sweep := calling "gc" (fun _ => []) answerSweep
  relocate r :=
    telling "oracle_gc_collect" (fun _ => [toString r.moved, toString r.collected]) id

def solver : TraceSolver Player Model where
  ensureDepth depth :=
    telling "ensure_depth" (fun _ => [toString depth])
      fun p => { p with depth := max p.depth depth }
  depth p := p.depth
  push := telling "push" (fun _ => []) fun p => { p with scopes := [] :: p.scopes }
  pop := modify (telling "pop" (fun _ => []) fun p => { p with scopes := p.scopes.tail })
  assert f :=
    calling "assert" (fun p => [p.text f, "A"]) <| modify fun p =>
      match p.scopes with
      | scope :: rest => { p with scopes := (scope ++ [f]) :: rest }
      | [] => p
  check :=
    calling "solve" (fun _ => []) do
      let p ← get
      return (p.asserted.findSome? (lookup · p.script.verdicts)).getD .sat
  model := calling "model" (fun _ => []) buildModel

def reachability : ReachabilityChecker Player Model where
  init := calling "reach_init" (fun _ => []) (modify fun p => { p with cex := [] })
  check first last g model :=
    calling "check_reachable"
      (fun p => [toString first, toString last, p.text g, toString model.length]) do
      match lookup g (← get).script.reachable with
      | some cex =>
          modify fun p => { p with cex }
          return true
      | none => return false
  counterTrace p := p.cex
  clear := telling "reach_clear" (fun _ => []) fun p => { p with cex := [] }
  relocate r :=
    telling "reach_gc_collect" (fun _ => [])
      fun p => { p with cex := p.cex.filterMap r.apply }

def recorder : Recorder Player Model where
  atStep f step := ofState (intern (.atStep f step))
  record model :=
    telling "set_model" (fun p => model.map p.text) fun p => { p with trace := model }

def load (_ : Unit) : Action Player Unit := do
  modify fun p => { p with pending := p.script.inductions }
  calling "open" (fun _ => []) <| modify fun p =>
    { p with scopes := [[]], depth := 0, cex := [], trace := [] }

def backend : Backend Unit Player Model where
  terms := vocabulary
  oracle := oracle
  solver := solver
  reachability := reachability
  recorder := recorder
  reports := Journal.reports (·.journal) fun journal p => { p with journal }
  load := load

end Player

end Invariance.Scripted
