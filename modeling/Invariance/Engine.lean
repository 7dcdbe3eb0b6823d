import Invariance.Search.Round

/-!
The engine: one query after another on the state of a backend. What is known of the last query can
be asked for until the next one or a reset.
-/

namespace Invariance

structure Engine (σ : Type) where
  search : Option Search := none
  world : σ

namespace Engine

variable {S σ μ α : Type} (B : Backend S σ μ) (config : Config)

def reset (e : Engine σ) : Engine σ :=
  match e.search with
  | none => e
  | some _ => { search := none, world := B.reachability.clear e.world }

def onSearch (s : Search) (action : SearchM σ α) : Action (Engine σ) α :=
  Action.within (fun e => (s, e.world)) (fun t _ => { search := some t.1, world := t.2 }) action

def query (fuel : Nat) (system : S) (property : Formula) : Action (Engine σ) Outcome := do
  modify (reset B)
  Action.within Engine.world (fun w e => { e with world := w }) (B.load system)
  onSearch .blank (Search.run B config fuel property)

def relocate (r : Relocation) : Action (Engine σ) Unit := do
  match (← get).search with
  | none => pure ()
  | some s => onSearch s (Search.relocate B r)

def outcome (e : Engine σ) : Option Outcome := e.search.bind (·.outcome)

def stats (e : Engine σ) : Statistics := (e.search.map (·.stats)).getD {}

def frame (e : Engine σ) : List Formula := (e.search.map (·.frame.toList)).getD []

def invariant (e : Engine σ) : Option (List Formula) :=
  if e.outcome = some .valid then some e.frame else none

def frameIndex (e : Engine σ) : Nat := (e.search.map (·.index)).getD 0

def inductionDepth (e : Engine σ) : Nat := (e.search.map (·.depth)).getD 0

def lineage (e : Engine σ) : Option Lineage := e.search.map (·.lineage)

def isInvalid (e : Engine σ) (f : Formula) : Bool :=
  (e.lineage.map (·.isInvalid f)).getD false

def writeGraph (e : Engine σ) (write : String → Except String Unit) : Except CheckError Unit :=
  match e.lineage with
  | none => .error .noQuery
  | some lineage => (lineage.dot.forM write).mapError .output

end Engine

end Invariance
