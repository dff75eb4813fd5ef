import TaggedHeap.Heap.Allocation
import TaggedHeap.Heap.Release

/-!
# Reallocation

A reallocation always moves: a new block is allocated, the payload is copied, and the old block is
released.
-/

namespace TaggedHeap.Heap

variable {S : Type} [Supply S]

/-- Moves a payload into a block for `size` bytes. Without a pointer this is an allocation, except
that asking for nothing is not refused; with a size of zero it is a release. If there is no block
to be had, the old one stays as it is. -/
def tryReallocate (h : Heap S) (pointer : Option Nat) (size : Nat) :
    Checked (Outcome S (Option Nat)) := do
  match pointer with
  | none =>
    match ← h.tryAllocate size with
    | (.ok new, h) => return (.ok (some new), h)
    | (.error .zeroSize, h) => return (.ok none, h)
    | (.error error, h) => return (.error error, h)
  | some old =>
    if size = 0 then
      match ← h.release old with
      | (.ok (), h) => return (.ok none, h)
      | (.error error, h) => return (.error error, h)
    else
      match ← h.usableSize old with
      | .error error => return (.error error, h)
      | .ok oldSize =>
        match ← h.tryAllocate size with
        | (.error error, h) => return (.error error, h)
        | (.ok new, h) =>
          let copied := min size oldSize
          let h ← h.edit (·.move old new copied)
          match ← h.release old with
          | (.error error, h) => return (.error error, h)
          | (.ok (), h) =>
            let h := h.tally .reallocation
            return (.ok (some new), h.log (.moved old new copied))

def reallocate (h : Heap S) (pointer : Option Nat) (size : Nat) :
    Checked (Option Nat × Heap S) := do
  let (answer, h) ← h.tryReallocate pointer size
  return (answer.toOption.join, h)

end TaggedHeap.Heap
