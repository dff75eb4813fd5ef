import TaggedHeap.Bucket.Chain

/-!
# Merging free neighbours

A block that becomes free is merged at once with those of its two neighbours that are free, so no
two free blocks ever lie side by side.
-/

namespace TaggedHeap.Memory

/-- Merges a block that is tagged free and in no bucket with its free neighbours, and puts the
result into its bucket. Also returns the merged block. -/
def coalesce (m : Memory) (block : Nat) : Checked (Nat × Memory) := do
  let before ← m.tagBefore block
  let after ← m.successor block
  let afterTag ← m.tagAt after
  let size ← m.sizeAt block
  let (merged, size, m) ← match before.isAllocated, afterTag.isAllocated with
    | true, true => pure (block, size, m)
    | true, false => do
      let size ← plus size afterTag.size
      pure (block, size, ← m.removeFree after)
    | false, true => do
      let first ← m.predecessor block
      let size ← plus size (← m.sizeAt first)
      pure (first, size, ← m.removeFree first)
    | false, false => do
      let first ← m.predecessor block
      let size ← plus size (← plus (← m.sizeAt first) afterTag.size)
      let m ← m.removeFree first
      pure (first, size, ← m.removeFree after)
  let m ← m.writeTags merged (← Tag.free size)
  let m ← m.insertFree merged
  return (merged, m)

/-- Tags an allocated block free and merges it with its free neighbours. -/
def free (m : Memory) (block : Nat) : Checked Memory := do
  let m ← m.writeTags block (← Tag.free (← m.sizeAt block))
  let (_, m) ← m.coalesce block
  return m

end TaggedHeap.Memory
