/-!
What a run reports about itself while it goes on. The fields of an event are computed when someone
reads them.
-/

namespace Invariance

inductive Level where
  | info | debug | trace
  deriving DecidableEq

inductive Field where
  | number (n : Nat)
  | flag (b : Bool)
  | text (s : String)

structure Event where
  level : Level
  message : String
  fields : Unit → List (String × Field) := fun _ => []

end Invariance
