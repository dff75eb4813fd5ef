import TaggedHeap.Heap.Payload
import TaggedHeap.Space.Merge

/-!
# Release
-/

namespace TaggedHeap.Heap

variable {S : Type}

/-- Gives the block behind a pointer back and merges it with its free neighbours. A rejected
pointer leaves the memory as it was. -/
def release (h : Heap S) (pointer : Nat) : Checked (Outcome S Unit) := do
  match ← h.memory.blockOf pointer with
  | .error error => return (.error error, h.log (.releaseRejected pointer error))
  | .ok block =>
    let size ← h.memory.sizeAt block
    let h ← h.edit (·.free block)
    let usable ← minus size 8
    let h := h.tally (·.release usable)
    return (.ok (), h.log (.released pointer size))

end TaggedHeap.Heap
