/-!
The settings of a search.
-/

namespace Invariance

structure Config where
  /-- The bound on rounds; 0 stands for none. -/
  maxFrames : Nat := 0
  extend : Bool := true
  showInvariant : Bool := false
  saveGraphs : Bool := false
  deriving DecidableEq

end Invariance
