import Invariance.FiniteState.StateSet

/-!
Sets of states in words of 64 bits. Bit `x % 64` of word `x / 64` says whether `x` is a member, and
there are as many words as the states need. The last word may reach past the last state; an
operation that could set bits there clears them again, because words are compared, counted and
searched as they stand.
-/

namespace Invariance.FiniteState

abbrev Word := BitVec 64

namespace Word

def single (k : Nat) : Word := 1#64 <<< k

def clearLowest (w : Word) : Word := w &&& (w - 1#64)

theorem toNat_clearLowest_lt {w : Word} (h : w ≠ 0#64) : (clearLowest w).toNat < w.toNat := by
  have hpos : 0 < w.toNat := Nat.pos_of_ne_zero fun h0 => h (BitVec.eq_of_toNat_eq h0)
  have hle : 1#64 ≤ w := hpos
  calc (clearLowest w).toNat ≤ (w - 1#64).toNat := by
        rw [clearLowest, BitVec.toNat_and]
        exact Nat.and_le_right
    _ = w.toNat - 1 := by
        rw [BitVec.toNat_sub_of_le hle]
        rfl
    _ < w.toNat := Nat.sub_lt hpos Nat.one_pos

/-- The places of the ones, each read off as the lowest and then cleared. -/
def ones (w : Word) : List Nat :=
  if w = 0#64 then [] else w.ctz.toNat :: ones (clearLowest w)
termination_by w.toNat
decreasing_by exact toNat_clearLowest_lt ‹_›

end Word

structure WordSet where
  size : Nat
  words : Array Word
  deriving DecidableEq

namespace WordSet

def empty (n : Nat) : WordSet := ⟨n, Array.replicate ((n + 63) / 64) 0#64⟩

def trim (s : WordSet) : WordSet :=
  if s.size % 64 = 0 then s
  else
    let mask := Word.single (s.size % 64) - 1#64
    { s with words := s.words.modify (s.words.size - 1) (· &&& mask) }

def full (n : Nat) : WordSet :=
  let s := empty n
  trim { s with words := s.words.map fun _ => BitVec.allOnes 64 }

def insert (s : WordSet) (x : Nat) : Except Violation WordSet :=
  if x < s.size then
    if h : x / 64 < s.words.size then
      .ok { s with words := s.words.set (x / 64) (s.words[x / 64] ||| Word.single (x % 64)) }
    else .error (.indexOutOfRange s.words.size (x / 64))
  else .error (.stateOutOfRange x)

def contains (s : WordSet) (x : Nat) : Except Violation Bool :=
  if x < s.size then
    match s.words[x / 64]? with
    | some w => .ok (w &&& Word.single (x % 64) != 0#64)
    | none => .error (.indexOutOfRange s.words.size (x / 64))
  else .ok false

def isEmpty (s : WordSet) : Bool := s.words.all (· == 0#64)

def card (s : WordSet) : Nat := s.words.foldl (fun count w => count + w.cpop.toNat) 0

/-- The number of a state has 32 bits. -/
def stateAt (word place : Nat) : Nat := (64 * word + place) % 0x100000000

def first (s : WordSet) : Option Nat :=
  (s.words.toList.zipIdx.find? fun entry => entry.1 != 0#64).map fun entry =>
    stateAt entry.2 entry.1.ctz.toNat

def toList (s : WordSet) : List Nat :=
  s.words.toList.zipIdx.flatMap fun entry => (Word.ones entry.1).map (stateAt entry.2)

def zip (op : Word → Word → Word) (s t : WordSet) : Except Violation WordSet :=
  if s.size = t.size then .ok ⟨s.size, Array.zipWith op s.words t.words⟩
  else .error (.differentSizes s.size t.size)

def union (s t : WordSet) : Except Violation WordSet := zip (· ||| ·) s t

def inter (s t : WordSet) : Except Violation WordSet := zip (· &&& ·) s t

def complement (s : WordSet) : WordSet := trim { s with words := s.words.map (~~~ ·) }

def render (s : WordSet) : String := braced s.toList

end WordSet

/-- A way to keep sets of states. -/
structure Storage (α : Type) where
  empty : Nat → α
  full : Nat → α
  insert : α → Nat → Except Violation α
  union : α → α → Except Violation α
  inter : α → α → Except Violation α
  complement : α → α

def WordSet.storage : Storage WordSet :=
  { empty := empty, full := full, insert := insert, union := union, inter := inter
    complement := complement }

def StateSet.storage : Storage StateSet :=
  { empty := empty, full := full, insert := insert, union := union, inter := inter
    complement := complement }

/-- How a set is put together. -/
inductive Recipe where
  | empty (n : Nat)
  | full (n : Nat)
  | states (n : Nat) (xs : List Nat)
  | insert (r : Recipe) (x : Nat)
  | union (r r' : Recipe)
  | inter (r r' : Recipe)
  | complement (r : Recipe)
  deriving Inhabited

def Recipe.build {α : Type} (kept : Storage α) : Recipe → Except Violation α
  | .empty n => do
      StateSet.allocatable n
      return kept.empty n
  | .full n => do
      StateSet.allocatable n
      return kept.full n
  | .states n xs => do
      StateSet.allocatable n
      xs.foldlM kept.insert (kept.empty n)
  | .insert r x => do kept.insert (← r.build kept) x
  | .union r r' => do kept.union (← r.build kept) (← r'.build kept)
  | .inter r r' => do kept.inter (← r.build kept) (← r'.build kept)
  | .complement r => return kept.complement (← r.build kept)

end Invariance.FiniteState
