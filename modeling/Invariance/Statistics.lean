/-!
The figures that a search keeps about itself.
-/

namespace Invariance

structure Statistics where
  frameIndex : Nat := 0
  inductionDepth : Nat := 0
  frameSize : Nat := 0
  framePushed : Nat := 0
  queueSize : Nat := 0
  maxCexDepth : Nat := 0
  rounds : Nat := 0
  deriving DecidableEq, Inhabited

end Invariance
