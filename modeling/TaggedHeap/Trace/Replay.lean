import Std.Data.TreeMap
import TaggedHeap.Heap.Check
import TaggedHeap.Heap.Reallocation
import TaggedHeap.Trace.Basic

/-!
# Replaying traces

Every payload of the trace is filled with a byte that depends on its id, and looked at again before
it is moved or freed and after it has been moved. Blocks that overlap, or a bad copy, show up as a
corrupted payload. If the settings of the heap ask for it, the heap is verified after each
operation.
-/

namespace TaggedHeap.Trace

variable {S : Type} [Supply S]

/-- The byte that the payloads of an id are filled with. -/
def fillByte (id : Nat) : UInt8 := id.toUInt8 * 31 + 7

/-- A payload of the trace: where it is, and how many bytes the trace asked for. -/
structure Live where
  pointer : Nat
  size : Nat
  deriving DecidableEq, Repr

/-- A replay under way. -/
structure Progress (S : Type) where
  heap : Heap S
  /-- The payloads that the trace has not given up, by their ids. -/
  live : Std.TreeMap Nat Live := ∅
  /-- The sizes of the live payloads together. -/
  requested : Nat := 0
  /-- The most that `requested` has been after an operation. -/
  peak : Nat := 0

/-- What an operation of the trace leaves. -/
abbrev Stage (S : Type) := Except Failure Unit × Progress S

/-- Looks for the fill byte of an id in a payload. -/
def inspect (h : Heap S) (payload : Live) (id line : Nat) : Checked (Except Failure Unit) := do
  match ← h.payloadHolds payload.pointer payload.size (fillByte id) with
  | .error error => return .error (.refused line error)
  | .ok true => return .ok ()
  | .ok false => return .error (.corrupted line id)

namespace Progress

/-- Allocates a payload. An id that is live already leaks its old payload. -/
def allocate : Progress S → (line id size : Nat) → Checked (Stage S)
  | ⟨h, live, requested, peak⟩, line, id, size => do
    match ← h.tryAllocate size with
    | (.error error, h) => return (.error (.refused line error), ⟨h, live, requested, peak⟩)
    | (.ok pointer, h) =>
      let requested ← match live[id]? with
        | some old => minus requested old.size
        | none => pure requested
      match ← h.fillPayload pointer size (fillByte id) with
      | (.error error, h) => return (.error (.refused line error), ⟨h, live, requested, peak⟩)
      | (.ok (), h) =>
        let requested ← plus requested size
        return (.ok (), ⟨h, live.insert id ⟨pointer, size⟩, requested, peak⟩)

/-- Reallocates a live payload; a size of zero gives it up. -/
def reallocate : Progress S → (line id size : Nat) → Checked (Stage S)
  | ⟨h, live, requested, peak⟩, line, id, size => do
    match live[id]? with
    | none => return (.error (.unknownId line id), ⟨h, live, requested, peak⟩)
    | some old =>
      match ← inspect h old id line with
      | .error failure => return (.error failure, ⟨h, live, requested, peak⟩)
      | .ok () =>
        match ← h.tryReallocate (some old.pointer) size with
        | (.error error, h) => return (.error (.refused line error), ⟨h, live, requested, peak⟩)
        | (.ok none, h) =>
          let requested ← minus requested old.size
          return (.ok (), ⟨h, live.erase id, requested, peak⟩)
        | (.ok (some pointer), h) =>
          let requested ← minus requested old.size
          match ← inspect h ⟨pointer, min old.size size⟩ id line with
          | .error failure => return (.error failure, ⟨h, live, requested, peak⟩)
          | .ok () =>
            match ← h.fillPayload pointer size (fillByte id) with
            | (.error error, h) =>
              return (.error (.refused line error), ⟨h, live, requested, peak⟩)
            | (.ok (), h) =>
              let requested ← plus requested size
              return (.ok (), ⟨h, live.insert id ⟨pointer, size⟩, requested, peak⟩)

def free : Progress S → (line id : Nat) → Checked (Stage S)
  | ⟨h, live, requested, peak⟩, line, id => do
    match live[id]? with
    | none => return (.error (.unknownId line id), ⟨h, live, requested, peak⟩)
    | some old =>
      match ← inspect h old id line with
      | .error failure => return (.error failure, ⟨h, live, requested, peak⟩)
      | .ok () =>
        match ← h.release old.pointer with
        | (.error error, h) => return (.error (.refused line error), ⟨h, live, requested, peak⟩)
        | (.ok (), h) =>
          let requested ← minus requested old.size
          return (.ok (), ⟨h, live.erase id, requested, peak⟩)

def apply (p : Progress S) (line : Nat) : Op → Checked (Stage S)
  | .allocate id size => p.allocate line id size
  | .reallocate id size => p.reallocate line id size
  | .free id => p.free line id

def notePeak (p : Progress S) : Progress S :=
  { p with peak := max p.peak p.requested }

/-- Runs one operation and then, if asked to, verifies the heap. -/
def step (check : Bool) (p : Progress S) (line : Nat) (op : Op) : Checked (Stage S) := do
  match ← p.apply line op with
  | (.error failure, p) => return (.error failure, p)
  | (.ok (), p) =>
    let p := p.notePeak
    if check then
      match ← p.heap.verify with
      | .ok () => return (.ok (), p)
      | .error violation => return (.error (.inconsistent line violation), p)
    else return (.ok (), p)

/-- Runs operations one after the other, up to the first failure. -/
def run (check : Bool) (p : Progress S) : List (Nat × Op) → Checked (Stage S)
  | [] => return (.ok (), p)
  | (line, op) :: rest => do
    match ← p.step check line op with
    | (.ok (), p) => p.run check rest
    | (.error failure, p) => return (.error failure, p)

end Progress

end TaggedHeap.Trace

namespace TaggedHeap

/-- Replays a trace on a heap. -/
def Trace.replay {S : Type} [Supply S] (t : Trace) (h : Heap S) :
    Checked (Except Trace.Failure Trace.Stats × Heap S) := do
  ensure (∀ entry ∈ t.ops, entry.2.id < t.numIds) .outOfBounds
  let check := h.config.checkOnReplay
  match ← Trace.Progress.run check { heap := h } t.ops with
  | (.error failure, p) => return (.error failure, p.heap)
  | (.ok (), ⟨h, _, _, peak⟩) =>
    let heapSize := h.currentSize
    let stats : Trace.Stats := { ops := t.ops.length, peakRequested := peak, heapSize }
    return (.ok stats, h.log (.replayed stats))

end TaggedHeap
