/-!
# Refusals

What a heap answers when it does not do what it was asked for.
-/

namespace TaggedHeap

/-- Why a heap refuses. -/
inductive HeapError where
  | zeroSize
  | tooLarge
  /-- The arena would have to grow and does not. -/
  | outOfMemory
  /-- The pointer is out of range, misaligned, or not at a block. -/
  | invalidPointer
  /-- The pointer is at a free block. -/
  | doubleFree
  /-- The arena cannot be formatted. -/
  | corruptArena
  | badConfig
  deriving DecidableEq, Repr

def HeapError.message : HeapError → String
  | zeroSize => "zero sized allocation request"
  | tooLarge => "allocation request exceeds the largest size class"
  | outOfMemory => "arena could not grow"
  | invalidPointer => "pointer was not allocated by this heap"
  | doubleFree => "block is already free"
  | corruptArena => "arena layout is not usable"
  | badConfig => "invalid heap config"

end TaggedHeap
