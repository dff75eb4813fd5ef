import TaggedHeap.Memory.Lemmas
import TaggedHeap.Tag

/-!
# Blocks by their tags

A block is named by the offset of its header word. Its payload follows the header and its footer,
the last word, repeats the header, so that a block finds its successor through its own header and
its predecessor through the word before it.

    allocated    | header | payload …                     | footer |
    free         | header | next | previous | unused …    | footer |
-/

namespace TaggedHeap.Memory

def tagAt (m : Memory) (offset : Nat) : Checked Tag := do
  return ⟨← m.read offset⟩

def sizeAt (m : Memory) (block : Nat) : Checked Nat := do
  return (← m.tagAt block).size

/-- The number of payload bytes of a block. -/
def usableAt (m : Memory) (block : Nat) : Checked Nat := do
  minus (← m.sizeAt block) 8

/-- The footer of a block, where its header puts it. -/
def footerAt (m : Memory) (block : Nat) : Checked Nat := do
  minus (← plus block (← m.sizeAt block)) 4

/-- Writes the header of a block, then the footer where the new header puts it. -/
def writeTags (m : Memory) (block : Nat) (tag : Tag) : Checked Memory := do
  let m ← m.write block tag.word
  let footer ← m.footerAt block
  m.write footer tag.word

/-- The block after a block; after the last one this is the epilogue. -/
def successor (m : Memory) (block : Nat) : Checked Nat := do
  plus block (← m.sizeAt block)

/-- The footer of the block before a block; before the first one this is that of the prologue. -/
def tagBefore (m : Memory) (block : Nat) : Checked Tag := do
  m.tagAt (← minus block 4)

/-- The block before a block, found through its footer. -/
def predecessor (m : Memory) (block : Nat) : Checked Nat := do
  minus block (← m.tagBefore block).size

/-- The tag that a word is, whether or not it is inside the memory. -/
def tag (m : Memory) (offset : Nat) : Tag := ⟨m.word offset⟩

theorem size_tag_lt (m : Memory) (offset : Nat) : (m.tag offset).size < 2 ^ 32 := by
  have small := m.word_lt offset
  simp only [tag, Tag.size]
  omega

theorem tagAt_eq_ok {m : Memory} {offset : Nat} (h : offset + 4 ≤ m.size) :
    m.tagAt offset = .ok (m.tag offset) := by
  rw [tagAt, read_eq_ok h]
  rfl

theorem sizeAt_eq_ok {m : Memory} {block : Nat} (h : block + 4 ≤ m.size) :
    m.sizeAt block = .ok (m.tag block).size := by
  rw [sizeAt, tagAt_eq_ok h, ok_bind]
  rfl

theorem size_lt_maxAddress (m : Memory) : m.size < 2 ^ 63 := m.size_lt

theorem successor_eq_ok {m : Memory} {block : Nat} (h : block + 4 ≤ m.size) :
    m.successor block = .ok (block + (m.tag block).size) := by
  rw [successor, sizeAt_eq_ok h]
  have small := m.size_lt_maxAddress
  have width := m.size_tag_lt block
  exact plus_eq_ok (by omega)

theorem usableAt_eq_ok {m : Memory} {block : Nat} (h : block + 4 ≤ m.size)
    (large : 8 ≤ (m.tag block).size) : m.usableAt block = .ok ((m.tag block).size - 8) := by
  rw [usableAt, sizeAt_eq_ok h]
  exact minus_eq_ok large

theorem tagBefore_eq_ok {m : Memory} {block : Nat} (low : 4 ≤ block) (h : block ≤ m.size) :
    m.tagBefore block = .ok (m.tag (block - 4)) := by
  rw [tagBefore, minus_eq_ok low]
  exact tagAt_eq_ok (by omega)

theorem predecessor_eq_ok {m : Memory} {block : Nat} (low : 4 ≤ block) (h : block ≤ m.size)
    (room : (m.tag (block - 4)).size ≤ block) :
    m.predecessor block = .ok (block - (m.tag (block - 4)).size) := by
  rw [predecessor, tagBefore_eq_ok low h]
  exact minus_eq_ok room

theorem footerAt_eq_ok {m : Memory} {block : Nat} (h : block + 4 ≤ m.size)
    (large : 4 ≤ block + (m.tag block).size) :
    m.footerAt block = .ok (block + (m.tag block).size - 4) := by
  have small := m.size_lt_maxAddress
  have width := m.size_tag_lt block
  rw [footerAt, sizeAt_eq_ok h, ok_bind, plus_eq_ok (by omega), ok_bind, minus_eq_ok large]

theorem writeTags_eq_ok {m : Memory} {block : Nat} {tag : Tag} (small : tag.word < 2 ^ 32)
    (large : 8 ≤ tag.size) (h : block + tag.size ≤ m.size) :
    m.writeTags block tag =
      .ok ((m.setWord block tag.word).setWord (block + tag.size - 4) tag.word) := by
  have header : block + 4 ≤ m.size := by omega
  have read : (m.setWord block tag.word).tag block = tag := by
    rw [Memory.tag, word_setWord_self header small]
  rw [writeTags, write_eq_ok header small, ok_bind,
    footerAt_eq_ok (by rwa [size_setWord]) (by rw [read]; omega), ok_bind, read]
  exact write_eq_ok (by rw [size_setWord]; omega) small

end TaggedHeap.Memory
