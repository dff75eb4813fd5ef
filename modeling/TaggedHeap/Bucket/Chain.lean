import TaggedHeap.Block.Tags
import TaggedHeap.Bucket.Basic

/-!
# Chains of free blocks

The free blocks of a bucket form a doubly linked chain that ends in zero links. Blocks enter at the
head, without any order by size or offset, and leave from any place. `Memory.chain` reads the chain
of a bucket as a list; it is defined on every memory, with a limit on the number of blocks read.
-/

namespace TaggedHeap.Memory

/-- Puts a block in front of the chain of a bucket. -/
def push (m : Memory) (bucket block : Nat) : Checked Memory := do
  let head ← m.head bucket
  let m ← m.setNext block head
  let m ← m.setPrevious block none
  let m ← match head with
    | some head => m.setPrevious head (some block)
    | none => pure m
  m.setHead bucket (some block)

/-- Takes a block out of the chain of a bucket, and clears its links. -/
def unlink (m : Memory) (bucket block : Nat) : Checked Memory := do
  let next ← m.next block
  let previous ← m.previous block
  let m ← match previous with
    | some previous => m.setNext previous next
    | none => do
      ensure ((← m.head bucket) = some block) .staleHead
      m.setHead bucket next
  let m ← match next with
    | some next => m.setPrevious next previous
    | none => pure m
  let m ← m.setNext block none
  m.setPrevious block none

/-- Puts a free block in front of the bucket for its size. -/
def insertFree (m : Memory) (block : Nat) : Checked Memory := do
  let bucket ← Bucket.ofSize (← m.sizeAt block)
  m.push bucket block

/-- Takes a free block out of the bucket for its size. -/
def removeFree (m : Memory) (block : Nat) : Checked Memory := do
  let bucket ← Bucket.ofSize (← m.sizeAt block)
  m.unlink bucket block

/-- At most `limit` blocks of the chain that starts with a link. -/
def chainFrom (m : Memory) : Nat → Nat → List Nat
  | 0, _ => []
  | limit + 1, block =>
    if block = 0 then [] else block :: m.chainFrom limit (m.word (block + 4))

/-- The chain of a bucket, cut off after `limit` blocks. -/
def chain (m : Memory) (limit bucket : Nat) : List Nat :=
  m.chainFrom limit (m.word (Bucket.slot bucket))

theorem chainFrom_zero (m : Memory) (limit : Nat) : m.chainFrom limit 0 = [] := by
  cases limit <;> rfl

theorem chainFrom_succ {m : Memory} {limit block : Nat} (h : block ≠ 0) :
    m.chainFrom (limit + 1) block = block :: m.chainFrom limit (m.word (block + 4)) := by
  rw [chainFrom, if_neg h]

end TaggedHeap.Memory
