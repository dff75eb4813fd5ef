import TaggedHeap.Memory.Lemmas

/-!
# Links between free blocks

A link is a word that holds the offset of a block, or zero for no block. A free block keeps the
link to the next block of its chain in the word after its header and the link to the previous one
in the word after that.
-/

namespace TaggedHeap.Memory

def blockNamed (word : Nat) : Option Nat :=
  if word = 0 then none else some word

/-- The block that the word at an offset names. -/
def linkAt (m : Memory) (offset : Nat) : Checked (Option Nat) := do
  return blockNamed (← m.read offset)

/-- Makes the word at an offset name a block. -/
def writeLink (m : Memory) (offset : Nat) (link : Option Nat) : Checked Memory :=
  m.write offset (link.getD 0)

def next (m : Memory) (block : Nat) : Checked (Option Nat) := do
  m.linkAt (← plus block 4)

def previous (m : Memory) (block : Nat) : Checked (Option Nat) := do
  m.linkAt (← plus block 8)

def setNext (m : Memory) (block : Nat) (link : Option Nat) : Checked Memory := do
  m.writeLink (← plus block 4) link

def setPrevious (m : Memory) (block : Nat) (link : Option Nat) : Checked Memory := do
  m.writeLink (← plus block 8) link

theorem linkAt_eq_ok {m : Memory} {offset : Nat} (h : offset + 4 ≤ m.size) :
    m.linkAt offset = .ok (blockNamed (m.word offset)) := by
  rw [linkAt, read_eq_ok h]
  rfl

theorem writeLink_eq_ok {m : Memory} {offset : Nat} {link : Option Nat}
    (h : offset + 4 ≤ m.size) (small : link.getD 0 < 2 ^ 32) :
    m.writeLink offset link = .ok (m.setWord offset (link.getD 0)) :=
  write_eq_ok h small

theorem next_eq_ok {m : Memory} {block : Nat} (h : block + 8 ≤ m.size) :
    m.next block = .ok (blockNamed (m.word (block + 4))) := by
  have bound : m.size < 2 ^ 63 := m.size_lt
  rw [next, plus_eq_ok (by omega)]
  exact linkAt_eq_ok h

theorem previous_eq_ok {m : Memory} {block : Nat} (h : block + 12 ≤ m.size) :
    m.previous block = .ok (blockNamed (m.word (block + 8))) := by
  have bound : m.size < 2 ^ 63 := m.size_lt
  rw [previous, plus_eq_ok (by omega)]
  exact linkAt_eq_ok h

theorem setNext_eq_ok {m : Memory} {block : Nat} {link : Option Nat} (h : block + 8 ≤ m.size)
    (small : link.getD 0 < 2 ^ 32) :
    m.setNext block link = .ok (m.setWord (block + 4) (link.getD 0)) := by
  have bound : m.size < 2 ^ 63 := m.size_lt
  rw [setNext, plus_eq_ok (by omega)]
  exact writeLink_eq_ok h small

theorem setPrevious_eq_ok {m : Memory} {block : Nat} {link : Option Nat}
    (h : block + 12 ≤ m.size) (small : link.getD 0 < 2 ^ 32) :
    m.setPrevious block link = .ok (m.setWord (block + 8) (link.getD 0)) := by
  have bound : m.size < 2 ^ 63 := m.size_lt
  rw [setPrevious, plus_eq_ok (by omega)]
  exact writeLink_eq_ok h small

end TaggedHeap.Memory
