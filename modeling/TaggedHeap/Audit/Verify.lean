import Std.Data.TreeSet
import TaggedHeap.Audit.Violation
import TaggedHeap.Block.Tags
import TaggedHeap.Bucket.Basic

/-!
# Verifying a memory

`Memory.verify` reads the whole of a memory and reports the first rule of the heap that it breaks:
first the sentinels and the blocks in the order of their offsets, then the chains in the order of
the buckets. It takes any bytes whatever. The walk over the blocks collects the free ones, and the
chains use them up one by one, so a chain that leads to a block twice is broken there.
-/

namespace TaggedHeap

/-- The result of a check: a fault, a violation, or what the check found. -/
abbrev Audit := ExceptT Violation Checked

namespace Memory

/-- Walks the blocks from an offset up to the epilogue and adds the free ones to `free`.
`freeBefore` is the block before that offset if it is free. -/
def auditBlocks (m : Memory) (epilogue offset : Nat) (freeBefore : Option Nat)
    (free : Std.TreeSet Nat) : Audit (Std.TreeSet Nat) := do
  if _inside : offset < epilogue then
    let tag ← m.tagAt offset
    if _small : tag.size < Layout.minBlock then
      throw (.badBlockSize offset tag.size)
    else if _long : epilogue < offset + tag.size then
      throw (.blockOutOfBounds offset tag.size)
    else if tag.isAllocated then
      m.auditBlocks epilogue (offset + tag.size) none free
    else
      let footer ← m.tagAt (offset + tag.size - 4)
      if footer ≠ tag then
        throw (.tagMismatch offset tag.word footer.word)
      if let some first := freeBefore then
        throw (.adjacentFree first offset)
      m.auditBlocks epilogue (offset + tag.size) (some offset) (free.insert offset)
  else
    if (← m.tagAt offset) ≠ Tag.epilogue then
      throw (.badEpilogue offset)
    return free
termination_by epilogue - offset
decreasing_by
  all_goals
    simp only [Layout.minBlock] at _small
    omega

theorem size_pos_of_mem {s : Std.TreeSet Nat} {a : Nat} (h : a ∈ s) : 0 < s.size := by
  have nonempty := Std.TreeSet.isEmpty_eq_false_of_contains (Std.TreeSet.mem_iff_contains.1 h)
  rw [Std.TreeSet.isEmpty_eq_size_eq_zero, beq_eq_false_iff_ne] at nonempty
  omega

/-- Follows the chain of a bucket from `cursor` on, whose predecessor is `previous`, and removes
its blocks from `pending`, the free blocks that no chain has led to yet. -/
def auditChain (m : Memory) (epilogue bucket : Nat) (previous : Option Nat) (cursor : Option Nat)
    (pending : Std.TreeSet Nat) : Audit (Std.TreeSet Nat) := do
  match cursor with
  | none => return pending
  | some block =>
    if block < Layout.firstBlock ∨ epilogue < block + Layout.minBlock ∨
        (block + 4) % Layout.alignment ≠ 0 then
      throw (.brokenLink block bucket)
    let tag ← m.tagAt block
    if tag.isAllocated then
      throw (.allocatedInList block bucket)
    if _listed : block ∈ pending then
      let expected := Bucket.ofSize? tag.size
      if expected ≠ some bucket then
        throw (.wrongBucket block bucket expected)
      if (← m.previous block) ≠ previous then
        throw (.brokenLink block bucket)
      m.auditChain epilogue bucket (some block) (← m.next block) (pending.erase block)
    else
      throw (.brokenLink block bucket)
termination_by pending.size
decreasing_by
  have pos : 0 < pending.size := size_pos_of_mem _listed
  rw [Std.TreeSet.size_erase, if_pos (Std.TreeSet.mem_iff_contains.1 _listed)]
  omega

/-- Follows the chains of the given buckets one after the other. -/
def auditChains (m : Memory) (epilogue : Nat) :
    List Nat → Std.TreeSet Nat → Audit (Std.TreeSet Nat)
  | [], pending => return pending
  | bucket :: rest, pending => do
    let pending ← m.auditChain epilogue bucket none (← m.head bucket) pending
    m.auditChains epilogue rest pending

/-- Reads the whole memory for the first broken rule. -/
def audit (m : Memory) : Audit Unit := do
  if m.size < Layout.bareSize then
    throw .badPrologue
  if (← m.tagAt Layout.prologue) ≠ Tag.prologue then
    throw .badPrologue
  if (← m.tagAt (Layout.prologue + 4)) ≠ Tag.prologue then
    throw .badPrologue
  let epilogue := m.size - 4
  let free ← m.auditBlocks epilogue Layout.firstBlock none ∅
  let pending ← m.auditChains epilogue (List.range Layout.bucketCount) free
  if pending.size ≠ 0 then
    throw (.unlistedFree (free.size - pending.size) free.size)

/-- The first broken rule, if there is one. -/
def verify (m : Memory) : Checked (Except Violation Unit) := m.audit

end Memory

end TaggedHeap
