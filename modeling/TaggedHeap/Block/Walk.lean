import TaggedHeap.Block.Tags
import TaggedHeap.Layout

/-!
# The blocks of a memory

`Memory.blocks` reads the blocks between the prologue and the epilogue off the headers, in the
order of their offsets. It is defined on every memory: it stops before the first block whose size
cannot be used.
-/

namespace TaggedHeap

/-- A block as its header describes it. -/
structure Block where
  offset : Nat
  size : Nat
  allocated : Bool
  deriving DecidableEq, Repr

namespace Memory

/-- The blocks from an offset up to the epilogue. -/
def blocksFrom (m : Memory) (epilogue offset : Nat) : List Block :=
  if _usable : offset < epilogue ∧ 0 < (m.tag offset).size ∧
      offset + (m.tag offset).size ≤ epilogue then
    ⟨offset, (m.tag offset).size, (m.tag offset).isAllocated⟩ ::
      m.blocksFrom epilogue (offset + (m.tag offset).size)
  else []
termination_by epilogue - offset
decreasing_by omega

/-- The blocks between the prologue and the epilogue. -/
def blocks (m : Memory) : List Block :=
  m.blocksFrom (m.size - 4) Layout.firstBlock

theorem blocksFrom_of_le {m : Memory} {epilogue offset : Nat} (h : epilogue ≤ offset) :
    m.blocksFrom epilogue offset = [] := by
  rw [blocksFrom, dif_neg]
  omega

theorem blocksFrom_cons {m : Memory} {epilogue offset : Nat} (low : offset < epilogue)
    (pos : 0 < (m.tag offset).size) (high : offset + (m.tag offset).size ≤ epilogue) :
    m.blocksFrom epilogue offset =
      ⟨offset, (m.tag offset).size, (m.tag offset).isAllocated⟩ ::
        m.blocksFrom epilogue (offset + (m.tag offset).size) := by
  rw [blocksFrom, dif_pos ⟨low, pos, high⟩]

end Memory

end TaggedHeap
