import TaggedHeap.Fault

/-!
# Layout of an arena

    0 … 128     the directory: one word per bucket, the head of its chain
    128         a word of padding, so that payloads are aligned
    132, 136    the prologue: header and footer of an allocated block of eight bytes
    140 …       the blocks, back to back
    size - 4    the epilogue: the header of an allocated block of no bytes

A word has 4 bytes. Block sizes and payload offsets are multiples of 8.
-/

namespace TaggedHeap.Layout

/-- Block sizes and payload offsets are multiples of this. -/
@[simp] abbrev alignment : Nat := 8

@[simp] abbrev bucketCount : Nat := 32

@[simp] abbrev padding : Nat := 128

@[simp] abbrev prologue : Nat := 132

@[simp] abbrev prologueSize : Nat := 8

@[simp] abbrev firstBlock : Nat := 140

/-- The size of an arena without blocks. -/
@[simp] abbrev bareSize : Nat := 144

@[simp] abbrev minBlock : Nat := 32

/-- A block is at least this much larger than the request it is for. -/
@[simp] abbrev overhead : Nat := 32

/-- The largest size of a block, and of a whole arena. -/
@[simp] abbrev maxBlock : Nat := 2 ^ 31

/-- The least multiple of the alignment that is not below `n`. -/
def alignUp (n : Nat) : Checked Nat := do
  let padded ← plus n (alignment - 1)
  return padded / alignment * alignment

theorem alignUp_eq_ok {n : Nat} (h : n + 7 < 2 ^ 64) : alignUp n = .ok ((n + 7) / 8 * 8) := by
  simp only [alignUp, alignment, plus_eq_ok h]
  rfl

theorem alignUp_of_dvd {n : Nat} (small : n + 7 < 2 ^ 64) (h : n % 8 = 0) :
    alignUp n = .ok n := by
  rw [alignUp_eq_ok small]
  congr 1
  omega

end TaggedHeap.Layout
