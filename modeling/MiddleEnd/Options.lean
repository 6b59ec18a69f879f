/-! # Options -/

namespace MiddleEnd

/-- How far the improvement of code goes. -/
structure Options where
  /-- Functions with at most this many nodes are copied to where they are called. -/
  inlineThreshold : Nat := 10
  /-- The most rounds of improvement. -/
  maxIterations : Nat := 1000
deriving Repr, DecidableEq, Inhabited

end MiddleEnd
