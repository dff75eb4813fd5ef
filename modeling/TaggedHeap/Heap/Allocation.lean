import TaggedHeap.Bucket.Search
import TaggedHeap.Heap.Growth
import TaggedHeap.Space.Place

/-!
# Allocation
-/

namespace TaggedHeap.Heap

variable {S : Type} [Supply S]

/-- The size of the block for a request: the request and the overhead, aligned. -/
def blockSizeFor (size : Nat) : Except HeapError Nat :=
  let padded := size + (Layout.overhead + Layout.alignment - 1)
  if 2 ^ 64 ≤ padded then .error .tooLarge
  else
    let blockSize := padded / Layout.alignment * Layout.alignment
    if Layout.maxBlock < blockSize then .error .tooLarge else .ok blockSize

/-- Finds a free block of at least `blockSize` bytes, or grows the arena by a chunk, or by the size
of the block if that is more. -/
def provide (h : Heap S) (blockSize : Nat) : Checked (Outcome S Nat) := do
  match ← h.memory.findFit blockSize with
  | some block => return (.ok block, h)
  | none =>
    let chunk := h.config.chunkSize
    h.extend (max blockSize chunk)

/-- Allocates a block for `size` payload bytes, without counting it. -/
def allocateBlock (h : Heap S) (size : Nat) : Checked (Outcome S Nat) := do
  if size = 0 then
    return (.error .zeroSize, h)
  match blockSizeFor size with
  | .error error => return (.error error, h)
  | .ok blockSize =>
    match ← h.provide blockSize with
    | (.error error, h) => return (.error error, h)
    | (.ok block, h) =>
      let h ← h.edit (·.place block blockSize)
      return (.ok block, h)

/-- Allocates `size` bytes and returns the offset of the payload. Asking for nothing is refused,
but does not count as a failure. -/
def tryAllocate (h : Heap S) (size : Nat) : Checked (Outcome S Nat) := do
  match ← h.allocateBlock size with
  | (.ok block, h) =>
    let usable ← h.memory.usableAt block
    let blockSize ← h.memory.sizeAt block
    let payload ← plus block 4
    let h := h.tally (·.allocation usable)
    return (.ok payload, h.log (.allocated size blockSize payload))
  | (.error .zeroSize, h) => return (.error .zeroSize, h)
  | (.error error, h) =>
    let h := h.tally .failure
    return (.error error, h.log (.allocationFailed size error))

def allocate (h : Heap S) (size : Nat) : Checked (Option Nat × Heap S) := do
  let (answer, h) ← h.tryAllocate size
  return (answer.toOption, h)

end TaggedHeap.Heap
