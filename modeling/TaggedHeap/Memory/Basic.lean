import TaggedHeap.Fault

/-!
# Byte memory

A memory is a contiguous range of bytes, addressed from zero. Its words are four bytes, the least
significant byte first. `byte` and `word` are total views: outside the memory they are zero. The
checked accessors `read`, `write`, `load`, `store` and `paint` deliver a result exactly where the
whole access lies inside the memory.
-/

namespace TaggedHeap

/-- A range of bytes short enough for every address in it to be a signed 64 bit number. -/
structure Memory where
  bytes : ByteArray
  size_lt : bytes.size < 2 ^ 63

namespace Memory

def empty : Memory := ⟨.empty, by decide⟩

instance : Inhabited Memory := ⟨empty⟩

def size (m : Memory) : Nat := m.bytes.size

/-- The byte at an address, zero outside the memory. -/
def byte (m : Memory) (i : Nat) : UInt8 :=
  if h : i < m.bytes.size then m.bytes[i] else 0

/-- The word at an address, zero where the word is not wholly inside the memory. -/
def word (m : Memory) (i : Nat) : Nat :=
  if i + 4 ≤ m.size then
    (m.byte i).toNat + 2 ^ 8 * (m.byte (i + 1)).toNat + 2 ^ 16 * (m.byte (i + 2)).toNat +
      2 ^ 24 * (m.byte (i + 3)).toNat
  else 0

theorem size_set! (b : ByteArray) (i : Nat) (x : UInt8) : (b.set! i x).size = b.size := by
  cases b
  simp [ByteArray.set!, ByteArray.size]

/-- Overwrites one byte; an address outside the memory changes nothing. -/
def setByte (m : Memory) (i : Nat) (x : UInt8) : Memory :=
  match m with
  | ⟨bytes, h⟩ => ⟨bytes.set! i x, by rwa [size_set!]⟩

/-- Overwrites the word at an address with the low 32 bits of a number. -/
def setWord (m : Memory) (i w : Nat) : Memory :=
  (((m.setByte i w.toUInt8).setByte (i + 1) (w / 2 ^ 8).toUInt8).setByte (i + 2)
    (w / 2 ^ 16).toUInt8).setByte (i + 3) (w / 2 ^ 24).toUInt8

/-- Overwrites `count` bytes from an address on with one value. -/
def setBytes (m : Memory) (i : Nat) : Nat → UInt8 → Memory
  | 0, _ => m
  | count + 1, x => (m.setByte i x).setBytes (i + 1) count x

/-- Whether `count` bytes from an address on all have one value. -/
def holds (m : Memory) (i : Nat) : Nat → UInt8 → Bool
  | 0, _ => true
  | count + 1, x => m.byte i == x && m.holds (i + 1) count x

def read (m : Memory) (i : Nat) : Checked Nat :=
  if i + 4 ≤ m.size then .ok (m.word i) else .error .outOfBounds

/-- Writes a number that has to fit a word. -/
def write (m : Memory) (i w : Nat) : Checked Memory :=
  if i + 4 ≤ m.size then
    if w < 2 ^ 32 then .ok (m.setWord i w) else .error .wideWord
  else .error .outOfBounds

def load (m : Memory) (start count : Nat) : Checked ByteArray :=
  if start + count ≤ m.size then .ok (m.bytes.extract start (start + count))
  else .error .outOfBounds

theorem size_copySlice {data bytes : ByteArray} {start : Nat}
    (h : start + data.size ≤ bytes.size) :
    (data.copySlice 0 bytes start data.size).size = bytes.size := by
  simp only [ByteArray.size, ByteArray.copySlice, Array.size_append, Array.size_extract] at *
  omega

/-- Overwrites the bytes from an address on with the given ones. -/
def store (m : Memory) (start : Nat) (data : ByteArray) : Checked Memory :=
  match m with
  | ⟨bytes, small⟩ =>
    if h : start + data.size ≤ bytes.size then
      .ok ⟨data.copySlice 0 bytes start data.size, by rwa [size_copySlice h]⟩
    else .error .outOfBounds

/-- Sets `count` bytes from an address on to one value. -/
def paint (m : Memory) (start count : Nat) (x : UInt8) : Checked Memory :=
  if start + count ≤ m.size then .ok (m.setBytes start count x) else .error .outOfBounds

/-- Moves `count` bytes; the two ranges may overlap. -/
def move (m : Memory) (source target count : Nat) : Checked Memory := do
  let data ← m.load source count
  m.store target data

/-- `count` zero bytes, built by doubling. -/
def zeros (count : Nat) : ByteArray :=
  if count = 0 then .empty
  else
    let half := zeros (count / 2)
    if count % 2 = 0 then half ++ half else (half ++ half).push 0
termination_by count
decreasing_by omega

theorem size_zeros (count : Nat) : (zeros count).size = count := by
  fun_induction zeros count with
  | case1 => rfl
  | case2 count _ half even ih =>
    simp only [half, ByteArray.size_append, ih]
    omega
  | case3 count _ half odd ih =>
    simp only [half, ByteArray.size_push, ByteArray.size_append, ih]
    omega

/-- Appends zero bytes, as long as the result can still be addressed. -/
def extend? (m : Memory) (count : Nat) : Option Memory :=
  match m with
  | ⟨bytes, _⟩ =>
    if h : bytes.size + count < 2 ^ 63 then
      some ⟨bytes ++ zeros count, by rwa [ByteArray.size_append, size_zeros]⟩
    else none

end Memory

end TaggedHeap
