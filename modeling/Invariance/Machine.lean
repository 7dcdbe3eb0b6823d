import Invariance.Fault

/-!
How far a machine counts, and how long a list of sets it holds. Both can be taken as unbounded, so
that what a search does is told apart from where its machine ends.
-/

namespace Invariance

structure Machine where
  words : Option Nat
  rows : Option Nat
  deriving DecidableEq

namespace Machine

/-- Counters are 64 bits wide. A list of sets takes 32 bytes an element, and no list takes half of
all addresses. -/
def word64 : Machine := ⟨some 0x10000000000000000, some 0x400000000000000⟩

def exact : Machine := ⟨none, none⟩

def counts (M : Machine) (n : Nat) : Bool := M.words.all fun limit => n < limit

def lists (M : Machine) (count : Nat) : Bool := M.rows.all fun limit => count < limit

def add (M : Machine) (a b : Nat) : Except Violation Nat :=
  if M.counts (a + b) then .ok (a + b) else .error .overflow

def allot (M : Machine) (count : Nat) : Except Violation Unit :=
  if M.lists count then .ok () else .error .capacity

end Machine

end Invariance
