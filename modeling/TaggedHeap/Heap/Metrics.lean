/-!
# Metrics

The counters that a heap keeps from one initialisation to the next.
-/

namespace TaggedHeap

/-- What a heap has done, and how much of it is in use. -/
structure Metrics where
  /-- Successful allocations, those inside reallocations included. -/
  allocations : Nat := 0
  /-- Successful releases, those inside reallocations included. -/
  releases : Nat := 0
  /-- Reallocations that moved a payload into a new block. -/
  reallocations : Nat := 0
  failedAllocations : Nat := 0
  /-- Growths of the arena, the one at the initialisation included. -/
  arenaGrowths : Nat := 0
  /-- Payload bytes of the allocated blocks. -/
  liveBytes : Nat := 0
  /-- The most that `liveBytes` has been. -/
  peakLiveBytes : Nat := 0
  deriving DecidableEq, Repr

namespace Metrics

def allocation (s : Metrics) (usable : Nat) : Metrics :=
  { s with
    allocations := s.allocations + 1
    liveBytes := s.liveBytes + usable
    peakLiveBytes := max s.peakLiveBytes (s.liveBytes + usable) }

/-- Counts a release of `usable` payload bytes; the live bytes never go below zero. -/
def release (s : Metrics) (usable : Nat) : Metrics :=
  { s with
    releases := s.releases + 1
    liveBytes := s.liveBytes - usable }

def failure (s : Metrics) : Metrics :=
  { s with failedAllocations := s.failedAllocations + 1 }

def growth (s : Metrics) : Metrics :=
  { s with arenaGrowths := s.arenaGrowths + 1 }

def reallocation (s : Metrics) : Metrics :=
  { s with reallocations := s.reallocations + 1 }

end Metrics

end TaggedHeap
