import TaggedHeap.Audit.Violation
import TaggedHeap.Heap.Error
import TaggedHeap.Trace.Stats

/-!
# Events

A heap keeps a journal of what it does. Each event has a level, a target that names the part of the
heap it comes from, a text, and named fields in a fixed order.
-/

namespace TaggedHeap

/-- What a heap reports about itself. -/
inductive Event where
  | initialized (arenaSize reclaimed : Nat)
  | allocated (requested blockSize payload : Nat)
  | allocationFailed (requested : Nat) (error : HeapError)
  | released (payload blockSize : Nat)
  | releaseRejected (payload : Nat) (error : HeapError)
  | moved (old new copied : Nat)
  | grew (increment arenaSize : Nat)
  | checkFailed (violation : Violation)
  | replayed (stats : Trace.Stats)
  deriving DecidableEq, Repr

namespace Event

inductive Level where
  /-- A single operation. -/
  | trace
  /-- A change of the arena, a refusal, or the end of a replay. -/
  | debug
  /-- A sign of misuse or of a broken heap. -/
  | warn
  deriving DecidableEq, Repr

inductive Value where
  | number (n : Nat)
  | text (s : String)
  | real (x : Float)

def level : Event → Level
  | allocated .. | released .. | moved .. => .trace
  | initialized .. | allocationFailed .. | grew .. | replayed .. => .debug
  | releaseRejected .. | checkFailed .. => .warn

def target : Event → String
  | checkFailed .. => "segfit::check"
  | replayed .. => "segfit::trace"
  | _ => "segfit::heap"

def message : Event → String
  | initialized .. => "heap initialized"
  | allocated .. => "allocated block"
  | allocationFailed .. => "allocation failed"
  | released .. => "released block"
  | releaseRejected .. => "release rejected"
  | moved .. => "moved block"
  | grew .. => "grew arena"
  | checkFailed .. => "heap check failed"
  | replayed .. => "trace replayed"

def fields : Event → List (String × Value)
  | initialized arenaSize reclaimed =>
    [("arena_size", .number arenaSize), ("reclaimed", .number reclaimed)]
  | allocated requested blockSize payload =>
    [("requested", .number requested), ("block_size", .number blockSize),
      ("payload", .number payload)]
  | allocationFailed requested error =>
    [("requested", .number requested), ("error", .text error.message)]
  | released payload blockSize =>
    [("payload", .number payload), ("block_size", .number blockSize)]
  | releaseRejected payload error =>
    [("payload", .number payload), ("error", .text error.message)]
  | moved old new copied =>
    [("old", .number old), ("new", .number new), ("copied", .number copied)]
  | grew increment arenaSize =>
    [("increment", .number increment), ("arena_size", .number arenaSize)]
  | checkFailed violation => [("violation", .text violation.message)]
  | replayed stats =>
    [("ops", .number stats.ops), ("utilization", .real stats.utilization)]

end Event

end TaggedHeap
