/-!
# What a replay observed
-/

namespace TaggedHeap.Trace

/-- The figures of a completed replay. -/
structure Stats where
  ops : Nat
  /-- The most bytes that were asked for and not given back at any one time. -/
  peakRequested : Nat
  heapSize : Nat
  deriving DecidableEq, Repr

/-- The share of the arena that the requests filled at their peak. -/
def Stats.utilization (s : Stats) : Float :=
  Float.ofNat s.peakRequested / Float.ofNat s.heapSize

end TaggedHeap.Trace
