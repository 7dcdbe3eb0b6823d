import Invariance.Backend

/-!
The journal of a run: the events down to a chosen level, with their fields worked out, and the
dependency graphs that were saved.
-/

namespace Invariance

def Level.rank : Level → Nat
  | .info => 0
  | .debug => 1
  | .trace => 2

structure Entry where
  level : Level
  message : String
  fields : List (String × Field)

inductive Shelf where
  | open
  | closed (reason : String)
  deriving DecidableEq

structure Journal where
  finest : Option Level := none
  entries : Array Entry := #[]
  shelf : Shelf := .open
  graphs : Array (String × String) := #[]

namespace Journal

def keeps (j : Journal) (level : Level) : Bool :=
  match j.finest with
  | none => false
  | some finest => level.rank ≤ finest.rank

def record (j : Journal) (e : Event) : Journal :=
  if j.keeps e.level then
    { j with entries := j.entries.push ⟨e.level, e.message, e.fields ()⟩ }
  else j

def save (j : Journal) (name : String) (lines : List String) : Except String Journal :=
  match j.shelf with
  | .closed reason => .error reason
  | .open => .ok { j with graphs := j.graphs.push (name, String.join lines) }

def reports {σ : Type} (part : σ → Journal) (replace : Journal → σ → σ) : Reports σ where
  report e s := replace ((part s).record e) s
  saveGraph name lines := fun s =>
    match (part s).save name lines with
    | .ok j => .ok () (replace j s)
    | .error reason => .error (.error (.output reason)) s

end Journal

end Invariance
