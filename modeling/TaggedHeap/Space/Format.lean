import TaggedHeap.Space.Merge

/-!
# Formatting a memory

Formatting lays a whole memory out, over whatever it holds. Bytes that are appended later are
annexed: they become a block of their own, in front of a new epilogue.
-/

namespace TaggedHeap.Memory

/-- Lays out the directory and the sentinels, and turns all the space between them into one free
block. Also returns the size of that block. -/
def format (m : Memory) : Checked (Nat × Memory) := do
  let epilogue ← minus m.size 4
  let reclaimed ← minus epilogue Layout.firstBlock
  let m ← m.clearHeads Layout.bucketCount
  let m ← m.write Layout.padding 0
  let m ← m.writeTags Layout.prologue (← Tag.allocated Layout.prologueSize)
  let m ← m.write epilogue Tag.epilogue.word
  if 0 < reclaimed then
    let m ← m.writeTags Layout.firstBlock (← Tag.free reclaimed)
    return (reclaimed, ← m.insertFree Layout.firstBlock)
  else
    return (reclaimed, m)

/-- Turns the `count` bytes from `start` on, which the memory has just grown by, into a free block
that takes the place of the old epilogue, and writes a new epilogue. Returns the block. -/
def annex (m : Memory) (start count : Nat) : Checked (Nat × Memory) := do
  let block ← minus start 4
  let m ← m.writeTags block (← Tag.free count)
  let m ← m.write (← minus (← plus start count) 4) Tag.epilogue.word
  return (block, m)

end TaggedHeap.Memory
