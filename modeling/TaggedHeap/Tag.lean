import TaggedHeap.Fault

/-!
# Boundary tags

A tag is one word that holds the size of a block and whether the block is allocated. Sizes are
multiples of 8, which leaves the low three bits of the word free; only the lowest is used.
-/

namespace TaggedHeap

/-- The word in the header or the footer of a block. -/
structure Tag where
  word : Nat
  deriving DecidableEq, Repr

namespace Tag

/-- The size of the tagged block: the word without its low three bits. -/
def size (t : Tag) : Nat := t.word / 8 * 8

/-- Whether the tagged block is allocated: the lowest bit of the word. -/
def isAllocated (t : Tag) : Bool := t.word % 2 == 1

def allocated (size : Nat) : Checked Tag := do
  ensure (size % 8 = 0) .unalignedSize
  ensure (size < 2 ^ 32) .wideWord
  return ⟨size + 1⟩

def free (size : Nat) : Checked Tag := do
  ensure (size % 8 = 0) .unalignedSize
  ensure (size < 2 ^ 32) .wideWord
  return ⟨size⟩

def prologue : Tag := ⟨9⟩

def epilogue : Tag := ⟨1⟩

theorem allocated_eq_ok {size : Nat} (aligned : size % 8 = 0) (small : size < 2 ^ 32) :
    allocated size = .ok ⟨size + 1⟩ := by
  simp only [allocated, ensure_eq_ok aligned, ensure_eq_ok small]
  rfl

theorem free_eq_ok {size : Nat} (aligned : size % 8 = 0) (small : size < 2 ^ 32) :
    free size = .ok ⟨size⟩ := by
  simp only [free, ensure_eq_ok aligned, ensure_eq_ok small]
  rfl

theorem size_mk {size : Nat} (aligned : size % 8 = 0) : (Tag.mk size).size = size := by
  simp only [Tag.size]
  omega

theorem size_mk_succ {size : Nat} (aligned : size % 8 = 0) : (Tag.mk (size + 1)).size = size := by
  simp only [Tag.size]
  omega

theorem isAllocated_mk {size : Nat} (aligned : size % 8 = 0) :
    (Tag.mk size).isAllocated = false := by
  simp only [Tag.isAllocated, beq_eq_false_iff_ne]
  omega

theorem isAllocated_mk_succ {size : Nat} (aligned : size % 8 = 0) :
    (Tag.mk (size + 1)).isAllocated = true := by
  simp only [Tag.isAllocated, beq_iff_eq]
  omega

theorem size_mod_eight (t : Tag) : t.size % 8 = 0 := by
  simp only [Tag.size]
  omega

end Tag

end TaggedHeap
