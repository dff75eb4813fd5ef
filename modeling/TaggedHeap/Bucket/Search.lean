import TaggedHeap.Bucket.Chain

/-!
# First fit

A block for a request is searched in the bucket for its size and then in the wider ones, each
chain from its head; the first block that is large enough is taken. A chain of distinct blocks is
no longer than the memory, so a longer one is a cycle that the search would never leave.
-/

namespace TaggedHeap.Memory

/-- The first block of at least `size` bytes in the chain that starts with a link. The chain may be
followed for a given number of blocks. -/
def searchChain (m : Memory) (size : Nat) : Nat → Option Nat → Checked (Option Nat)
  | _, none => .ok none
  | 0, some _ => .error .endlessChain
  | limit + 1, some block => do
    let next ← m.next block
    if size ≤ (← m.sizeAt block) then return some block
    m.searchChain size limit next

/-- The first block of at least `size` bytes in the chains of the given buckets. -/
def searchBuckets (m : Memory) (size : Nat) : List Nat → Checked (Option Nat)
  | [] => .ok none
  | bucket :: rest => do
    match ← m.searchChain size m.size (← m.head bucket) with
    | some block => return some block
    | none => m.searchBuckets size rest

/-- The free block that a request of `size` bytes takes, if there is one. -/
def findFit (m : Memory) (size : Nat) : Checked (Option Nat) :=
  match Bucket.ofSize? size with
  | some first => m.searchBuckets size (List.range' first (Layout.bucketCount - first))
  | none => .ok none

end TaggedHeap.Memory
