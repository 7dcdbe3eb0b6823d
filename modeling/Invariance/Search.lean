import Invariance.Agenda
import Invariance.Backend
import Invariance.Config
import Invariance.Lineage
import Invariance.Statistics

/-!
The state of one query and the moves that every part of the search is made of: reaching the
backend, changing the frame, and queueing and popping obligations with the figures kept in step.
-/

namespace Invariance

structure Search where
  frame : Frame := {}
  agenda : Agenda := {}
  staged : List Obligation := []
  lineage : Lineage := {}
  index : Nat := 0
  depth : Nat := 0
  stats : Statistics := {}
  outcome : Option Outcome := none
  deriving Inhabited

abbrev SearchM (σ α : Type) := Action (Search × σ) α

namespace Search

variable {S σ μ α : Type} (B : Backend S σ μ)

def blank : Search := {}

def state : SearchM σ Search := fun s => .ok s.1 s

def change (f : Search → Search) : SearchM σ Unit := fun s => .ok () (f s.1, s.2)

def ask (f : σ → α) : SearchM σ α := fun s => .ok (f s.2) s

def update (f : σ → σ) : SearchM σ Unit := fun s => .ok () (s.1, f s.2)

def act (action : Action σ α) : SearchM σ α :=
  Action.within Prod.snd (fun w s => (s.1, w)) action

def step (action : Step σ α) : SearchM σ α := act (Action.ofStep action)

def report (level : Level) (message : String)
    (fields : Search → (Formula → String) → List (String × Field) := fun _ _ => []) :
    SearchM σ Unit := fun (s, w) =>
  .ok () (s, B.reports.report ⟨level, message, fun _ => fields s (B.terms.display w)⟩ w)

def negate (f : Formula) : SearchM σ Formula := step (B.terms.negate f)

def countFrame : SearchM σ Unit :=
  change fun s => { s with stats.frameSize := s.frame.size }

def onFrame (action : Action (Frame × σ) Unit) : SearchM σ Unit := do
  Action.within (fun s => (s.1.frame, s.2)) (fun t s => ({ s.1 with frame := t.1 }, t.2)) action
  countFrame

def addToFrame (f : Formula) (role : Role) : SearchM σ Unit :=
  onFrame (Frame.add B.oracle.toRegistry f role)

def clearFrame (depth : Nat) : SearchM σ Unit :=
  onFrame (Frame.clear B.oracle.toRegistry depth)

def enqueue (ob : Obligation) : SearchM σ Unit := do
  let refutation ← negate B ob.counter
  let s ← state
  unless s.frame.contains refutation do
    Action.violate (.notRefuted ob.counter)
  let (_, agenda) ← Action.ofExcept (s.agenda.push ob)
  change fun s => { s with agenda, stats.queueSize := agenda.size }

def pop : SearchM σ Obligation := do
  let (ob, agenda) ← Action.ofExcept (← state).agenda.pop
  change fun s => { s with agenda, stats.queueSize := agenda.size }
  return ob

def bump (counter : Formula) : SearchM σ Unit := do
  let (_, agenda) ← Action.ofExcept ((← state).agenda.bump counter .one)
  change fun s => { s with agenda }

def checkRefutations : SearchM σ Unit := do
  let waiting ← Action.ofExcept (← state).agenda.toList
  waiting.forM fun ob => do
    let refutation ← negate B ob.counter
    unless (← state).frame.contains refutation do
      Action.violate (.refutationLost ob.counter)

def checkedAdd (a b : Nat) : SearchM σ Nat := Action.ofExcept (B.machine.add a b)

def markInvalid (f : Formula) (frame : Nat) : SearchM σ Unit := do
  let s ← state
  unless s.index ≤ frame do
    Action.violate (.markedBeforeFrame f frame s.index)
  let lineage ← Action.ofExcept (s.lineage.markInvalid f frame)
  change fun s => { s with lineage }

end Search

end Invariance
