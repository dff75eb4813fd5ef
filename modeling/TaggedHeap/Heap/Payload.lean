import TaggedHeap.Block.Tags
import TaggedHeap.Heap.Basic
import TaggedHeap.Layout

/-!
# Payloads

A pointer is the offset of a payload. Any number can come as a pointer, so each access first asks
whether there is an allocated block behind it.
-/

namespace TaggedHeap

namespace Memory

/-- The allocated block behind a pointer. A pointer is rejected if it is out of range, misaligned,
or not after a header that describes a block within the epilogue, or if that block is free. -/
def blockOf (m : Memory) (pointer : Nat) : Checked (Except HeapError Nat) := do
  let epilogue ← minus m.size 4
  if pointer < Layout.firstBlock + 4 ∨ epilogue ≤ pointer ∨
      pointer % Layout.alignment ≠ 0 then
    return .error .invalidPointer
  let block ← minus pointer 4
  let tag ← m.tagAt block
  if tag.size < Layout.minBlock then
    return .error .invalidPointer
  if epilogue < (← plus block tag.size) then
    return .error .invalidPointer
  if tag.isAllocated then
    return .ok block
  return .error .doubleFree

end Memory

namespace Heap

variable {S : Type}

/-- The number of bytes that may be used behind a pointer, which is at least the number that was
asked for. -/
def usableSize (h : Heap S) (pointer : Nat) : Checked (Except HeapError Nat) := do
  match ← h.memory.blockOf pointer with
  | .error error => return .error error
  | .ok block => return .ok (← h.memory.usableAt block)

def payload (h : Heap S) (pointer : Nat) : Checked (Except HeapError ByteArray) := do
  match ← h.usableSize pointer with
  | .error error => return .error error
  | .ok usable => return .ok (← h.memory.load pointer usable)

/-- Whether the first `count` bytes behind a pointer all have one value. -/
def payloadHolds (h : Heap S) (pointer count : Nat) (x : UInt8) :
    Checked (Except HeapError Bool) := do
  match ← h.usableSize pointer with
  | .error error => return .error error
  | .ok usable =>
    ensure (count ≤ usable) .outOfBounds
    return .ok (h.memory.holds pointer count x)

/-- Overwrites the bytes behind a pointer, from the `start`-th on. -/
def writePayload (h : Heap S) (pointer start : Nat) (data : ByteArray) :
    Checked (Outcome S Unit) := do
  match ← h.usableSize pointer with
  | .error error => return (.error error, h)
  | .ok usable =>
    ensure (start + data.size ≤ usable) .outOfBounds
    let h ← h.edit (·.store (pointer + start) data)
    return (.ok (), h)

/-- Sets the first `count` bytes behind a pointer to one value. -/
def fillPayload (h : Heap S) (pointer count : Nat) (x : UInt8) : Checked (Outcome S Unit) := do
  match ← h.usableSize pointer with
  | .error error => return (.error error, h)
  | .ok usable =>
    ensure (count ≤ usable) .outOfBounds
    let h ← h.edit (·.paint pointer count x)
    return (.ok (), h)

end Heap

end TaggedHeap
