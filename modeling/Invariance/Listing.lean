/-!
The text of a sequence of items: separated by commas, between a pair of brackets.
-/

namespace Invariance

def listing (opening closing : String) (items : List String) : String :=
  opening ++ ", ".intercalate items ++ closing

def braced (states : List Nat) : String := listing "\x7b" "\x7d" (states.map toString)

def bracketed (states : List Nat) : String := listing "[" "]" (states.map toString)

end Invariance
