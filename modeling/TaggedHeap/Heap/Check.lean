import TaggedHeap.Audit.Verify
import TaggedHeap.Heap.Basic

/-!
# Checking a heap
-/

namespace TaggedHeap.Heap

variable {S : Type}

/-- The first rule that the heap breaks, if there is one. -/
def verify (h : Heap S) : Checked (Except Violation Unit) :=
  h.memory.verify

/-- Whether the heap keeps all rules; a broken one is logged. -/
def check (h : Heap S) : Checked (Bool × Heap S) := do
  match ← h.verify with
  | .ok () => return (true, h)
  | .error violation => return (false, h.log (.checkFailed violation))

end TaggedHeap.Heap
