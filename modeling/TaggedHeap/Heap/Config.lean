import TaggedHeap.Heap.Error
import TaggedHeap.Layout

/-!
# Configurations
-/

namespace TaggedHeap

/-- The settings of a heap. -/
structure Config where
  /-- The least number of bytes by which an arena grows. -/
  chunkSize : Nat := 4096
  /-- The most bytes an arena made for the heap may have, directory and sentinels included. -/
  maxHeapSize : Nat := 20 * 2 ^ 20
  /-- Whether a replay verifies the heap after each operation. -/
  checkOnReplay : Bool := true
  deriving DecidableEq, Repr

namespace Config

/-- Accepts a chunk of whole aligned units, and a ceiling between the bare layout and the largest
size of a block: every block has to fit a bucket, so the whole arena has to as well. -/
def validate (c : Config) : Except HeapError Unit :=
  if c.chunkSize = 0 ∨ c.chunkSize % Layout.alignment ≠ 0 then .error .badConfig
  else if Layout.maxBlock < c.maxHeapSize ∨ c.maxHeapSize < Layout.bareSize then .error .badConfig
  else .ok ()

theorem validate_eq_ok_iff {c : Config} :
    c.validate = .ok () ↔
      (0 < c.chunkSize ∧ c.chunkSize % 8 = 0) ∧ 144 ≤ c.maxHeapSize ∧ c.maxHeapSize ≤ 2 ^ 31 := by
  unfold validate
  simp only [Layout.alignment, Layout.maxBlock, Layout.bareSize]
  by_cases chunk : c.chunkSize = 0 ∨ c.chunkSize % 8 ≠ 0
  · simp only [if_pos chunk, reduceCtorEq, false_iff]
    omega
  · by_cases ceiling : 2 ^ 31 < c.maxHeapSize ∨ c.maxHeapSize < 144
    · simp only [if_neg chunk, if_pos ceiling, reduceCtorEq, false_iff]
      omega
    · simp only [if_neg chunk, if_neg ceiling, true_iff]
      omega

end Config

end TaggedHeap
