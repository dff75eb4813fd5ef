import TaggedHeap.Bucket.Chain

/-!
# Placing a request in a free block

The front of the block becomes the allocated block. What is left becomes a free block of its own if
it is large enough, and is otherwise handed out together with the front.
-/

namespace TaggedHeap.Memory

/-- Allocates `size` bytes at the front of a free block. The rest is not merged with its
successor, which is allocated as long as free neighbours are always merged. -/
def place (m : Memory) (block size : Nat) : Checked Memory := do
  let whole ← m.sizeAt block
  let rest ← minus whole size
  let m ← m.removeFree block
  if Layout.minBlock ≤ rest then
    let m ← m.writeTags block (← Tag.allocated size)
    let tail ← m.successor block
    let m ← m.writeTags tail (← Tag.free rest)
    m.insertFree tail
  else
    m.writeTags block (← Tag.allocated whole)

end TaggedHeap.Memory
