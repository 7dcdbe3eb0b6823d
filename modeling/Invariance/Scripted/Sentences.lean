import Invariance.Formula

/-!
A store of uninterpreted terms: atoms with a name and what can be built from them. Structurally
equal terms are one formula.
-/

namespace Invariance.Scripted

inductive Sentence where
  | atom (name : String)
  | neg (f : Formula)
  | disj (f g : Formula)
  | conj (fs : List Formula)
  | atStep (f : Formula) (step : Nat)
  deriving DecidableEq

structure Sentences where
  terms : Array Sentence := #[]
  keepDouble : Bool := false
  deriving Inhabited

namespace Sentences

def length (s : Sentences) : Nat := s.terms.size

def term? (s : Sentences) (f : Formula) : Option Sentence := s.terms[f.id]?

def intern (t : Sentence) : StateM Sentences Formula := fun s =>
  match s.terms.toList.findIdx? (· = t) with
  | some i => (⟨i⟩, s)
  | none => (⟨s.length⟩, { s with terms := s.terms.push t })

def negate (f : Formula) : StateM Sentences Formula := fun s =>
  match s.term? f, s.keepDouble with
  | some (.neg g), false => (g, s)
  | _, _ => intern (.neg f) s

def conjuncts (s : Sentences) (f : Formula) : Option (List Formula) :=
  match s.term? f with
  | some (.conj fs) => some fs
  | _ => none

def textWithin (s : Sentences) : (bound : Nat) → Formula → String
  | 0, f => f.render
  | bound + 1, f =>
      match s.term? f with
      | none => f.render
      | some (.atom name) => name
      | some (.neg g) => "!" ++ textWithin s bound g
      | some (.disj g h) => "(" ++ textWithin s bound g ++ "|" ++ textWithin s bound h ++ ")"
      | some (.conj fs) => "(" ++ "&".intercalate (fs.map (textWithin s bound)) ++ ")"
      | some (.atStep g step) => textWithin s bound g ++ "@" ++ toString step

def text (s : Sentences) (f : Formula) : String := s.textWithin (s.length + 1) f

end Sentences

end Invariance.Scripted
