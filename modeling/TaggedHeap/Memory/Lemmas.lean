import TaggedHeap.Memory.Basic

/-!
# Reading after writing

Each writer of a memory is described by what the views read afterwards: the value that was written
inside the range, and what was there before outside of it.
-/

namespace TaggedHeap.Memory

theorem byte_of_lt {m : Memory} {i : Nat} (h : i < m.bytes.size) : m.byte i = m.bytes[i] :=
  dif_pos h

theorem byte_of_le {m : Memory} {i : Nat} (h : m.size ≤ i) : m.byte i = 0 :=
  dif_neg (Nat.not_lt.mpr h)

theorem byte_eq_getD (m : Memory) (i : Nat) : m.byte i = m.bytes.data[i]?.getD 0 := by
  by_cases h : i < m.bytes.size
  · rw [byte_of_lt h, ByteArray.getElem_eq_getElem_data, Array.getElem?_eq_getElem h]
    rfl
  · rw [byte_of_le (Nat.not_lt.mp h), Array.getElem?_eq_none (Nat.not_lt.mp h)]
    rfl

theorem word_of_le {m : Memory} {i : Nat} (h : i + 4 ≤ m.size) :
    m.word i = (m.byte i).toNat + 2 ^ 8 * (m.byte (i + 1)).toNat +
      2 ^ 16 * (m.byte (i + 2)).toNat + 2 ^ 24 * (m.byte (i + 3)).toNat :=
  if_pos h

theorem word_lt (m : Memory) (i : Nat) : m.word i < 2 ^ 32 := by
  unfold word
  split
  · have h0 := (m.byte i).toNat_lt
    have h1 := (m.byte (i + 1)).toNat_lt
    have h2 := (m.byte (i + 2)).toNat_lt
    have h3 := (m.byte (i + 3)).toNat_lt
    omega
  · decide

/-- Two memories of one size that agree on all bytes agree on all words. -/
theorem word_congr {m n : Memory} {i : Nat} (size : n.size = m.size)
    (h : ∀ j, i ≤ j → j < i + 4 → n.byte j = m.byte j) : n.word i = m.word i := by
  unfold word
  rw [size, h i (by omega) (by omega), h (i + 1) (by omega) (by omega),
    h (i + 2) (by omega) (by omega), h (i + 3) (by omega) (by omega)]

/-- Two memories of one size that agree on a word inside agree on its bytes. -/
theorem byte_congr {m n : Memory} {i j : Nat} (size : n.size = m.size) (h : i + 4 ≤ m.size)
    (word : n.word i = m.word i) (low : i ≤ j) (high : j < i + 4) : n.byte j = m.byte j := by
  rw [word_of_le h, word_of_le (by rwa [size])] at word
  have digit := fun k => And.intro (m.byte k).toNat_lt (n.byte k).toNat_lt
  have d0 := digit i
  have d1 := digit (i + 1)
  have d2 := digit (i + 2)
  have d3 := digit (i + 3)
  apply UInt8.toNat_inj.mp
  obtain rfl | rfl | rfl | rfl : j = i ∨ j = i + 1 ∨ j = i + 2 ∨ j = i + 3 := by omega
  all_goals omega

@[simp] theorem size_setByte (m : Memory) (i : Nat) (x : UInt8) :
    (m.setByte i x).size = m.size := by
  obtain ⟨bytes, h⟩ := m
  exact size_set! bytes i x

theorem byte_setByte {m : Memory} {i j : Nat} {x : UInt8} (h : i < m.size) :
    (m.setByte i x).byte j = if j = i then x else m.byte j := by
  obtain ⟨⟨data⟩, small⟩ := m
  have inside : i < data.size := h
  rw [byte_eq_getD, byte_eq_getD]
  change (data.setIfInBounds i x)[j]?.getD 0 = _
  rw [Array.getElem?_setIfInBounds]
  by_cases same : j = i
  · subst same
    rw [if_pos rfl, if_pos inside, if_pos rfl]
    rfl
  · rw [if_neg (Ne.symm same), if_neg same]

@[simp] theorem size_setWord (m : Memory) (i w : Nat) : (m.setWord i w).size = m.size := by
  simp only [setWord, size_setByte]

theorem byte_setWord {m : Memory} {i j w : Nat} (h : i + 4 ≤ m.size) :
    (m.setWord i w).byte j =
      if j = i + 3 then (w / 2 ^ 24).toUInt8
      else if j = i + 2 then (w / 2 ^ 16).toUInt8
      else if j = i + 1 then (w / 2 ^ 8).toUInt8
      else if j = i then w.toUInt8
      else m.byte j := by
  unfold setWord
  rw [byte_setByte (by simp only [size_setByte]; omega),
    byte_setByte (by simp only [size_setByte]; omega),
    byte_setByte (by simp only [size_setByte]; omega), byte_setByte (by omega)]

theorem word_setWord_self {m : Memory} {i w : Nat} (h : i + 4 ≤ m.size) (small : w < 2 ^ 32) :
    (m.setWord i w).word i = w := by
  have b0 : (m.setWord i w).byte i = w.toUInt8 := by
    rw [byte_setWord h, if_neg (by omega), if_neg (by omega), if_neg (by omega), if_pos rfl]
  have b1 : (m.setWord i w).byte (i + 1) = (w / 2 ^ 8).toUInt8 := by
    rw [byte_setWord h, if_neg (by omega), if_neg (by omega), if_pos rfl]
  have b2 : (m.setWord i w).byte (i + 2) = (w / 2 ^ 16).toUInt8 := by
    rw [byte_setWord h, if_neg (by omega), if_pos rfl]
  have b3 : (m.setWord i w).byte (i + 3) = (w / 2 ^ 24).toUInt8 := by
    rw [byte_setWord h, if_pos rfl]
  rw [word_of_le (by rwa [size_setWord]), b0, b1, b2, b3]
  simp only [Nat.toUInt8, UInt8.toNat_ofNat']
  omega

theorem byte_setWord_of_disjoint {m : Memory} {i j w : Nat} (h : i + 4 ≤ m.size)
    (disjoint : j < i ∨ i + 4 ≤ j) : (m.setWord i w).byte j = m.byte j := by
  rw [byte_setWord h, if_neg (by omega), if_neg (by omega), if_neg (by omega),
    if_neg (by omega)]

theorem word_setWord_of_disjoint {m : Memory} {i j w : Nat} (h : i + 4 ≤ m.size)
    (disjoint : j + 4 ≤ i ∨ i + 4 ≤ j) : (m.setWord i w).word j = m.word j := by
  apply word_congr (size_setWord m i w)
  intro k low high
  exact byte_setWord_of_disjoint h (by omega)

theorem read_eq_ok {m : Memory} {i : Nat} (h : i + 4 ≤ m.size) : m.read i = .ok (m.word i) :=
  if_pos h

theorem write_eq_ok {m : Memory} {i w : Nat} (h : i + 4 ≤ m.size) (small : w < 2 ^ 32) :
    m.write i w = .ok (m.setWord i w) := by
  rw [write, if_pos h, if_pos small]

@[simp] theorem size_setBytes (m : Memory) (i count : Nat) (x : UInt8) :
    (m.setBytes i count x).size = m.size := by
  induction count generalizing m i with
  | zero => rfl
  | succ count ih => rw [setBytes, ih, size_setByte]

theorem byte_setBytes {m : Memory} {i j count : Nat} {x : UInt8} (h : i + count ≤ m.size) :
    (m.setBytes i count x).byte j = if i ≤ j ∧ j < i + count then x else m.byte j := by
  induction count generalizing m i with
  | zero => rw [setBytes, if_neg (by omega)]
  | succ count ih =>
    rw [setBytes, ih (by rw [size_setByte]; omega), byte_setByte (by omega)]
    grind

theorem holds_iff {m : Memory} {i count : Nat} {x : UInt8} :
    m.holds i count x = true ↔ ∀ j, i ≤ j → j < i + count → m.byte j = x := by
  induction count generalizing i with
  | zero =>
    simp only [holds, true_iff]
    intro j low high
    omega
  | succ count ih =>
    rw [holds, Bool.and_eq_true, beq_iff_eq, ih]
    constructor
    · rintro ⟨first, rest⟩ j low high
      rcases Nat.eq_or_lt_of_le low with rfl | later
      · exact first
      · exact rest j later (by omega)
    · intro h
      exact ⟨h i (by omega) (by omega), fun j low high => h j (by omega) (by omega)⟩

theorem load_eq_ok {m : Memory} {start count : Nat} (h : start + count ≤ m.size) :
    m.load start count = .ok (m.bytes.extract start (start + count)) :=
  if_pos h

theorem paint_eq_ok {m : Memory} {start count : Nat} {x : UInt8} (h : start + count ≤ m.size) :
    m.paint start count x = .ok (m.setBytes start count x) :=
  if_pos h

theorem size_store {m n : Memory} {start : Nat} {data : ByteArray}
    (h : m.store start data = .ok n) : n.size = m.size := by
  obtain ⟨bytes, small⟩ := m
  by_cases inside : start + data.size ≤ bytes.size
  · rw [store, dif_pos inside] at h
    cases h
    exact size_copySlice inside
  · rw [store, dif_neg inside] at h
    cases h

theorem store_eq_ok_iff {m n : Memory} {start : Nat} {data : ByteArray} :
    m.store start data = .ok n ↔ start + data.size ≤ m.size ∧
      n.bytes = data.copySlice 0 m.bytes start data.size := by
  obtain ⟨bytes, small⟩ := m
  obtain ⟨target, _⟩ := n
  constructor
  · intro h
    by_cases inside : start + data.size ≤ bytes.size
    · rw [store, dif_pos inside] at h
      cases h
      exact ⟨inside, rfl⟩
    · rw [store, dif_neg inside] at h
      cases h
  · rintro ⟨inside, rfl⟩
    exact dif_pos inside

theorem byte_store {m n : Memory} {start j : Nat} {data : ByteArray}
    (h : m.store start data = .ok n) :
    n.byte j = if start ≤ j ∧ j < start + data.size then data.data[j - start]?.getD 0
      else m.byte j := by
  obtain ⟨inside, bytes⟩ := store_eq_ok_iff.1 h
  have fits : start + data.data.size ≤ m.bytes.data.size := inside
  have width : data.size = data.data.size := rfl
  have pieces : (data.copySlice 0 m.bytes start data.size).data =
      m.bytes.data.extract 0 start ++ data.data.extract 0 (0 + data.size) ++
        m.bytes.data.extract (start + min data.size (data.data.size - 0)) := rfl
  rw [byte_eq_getD, byte_eq_getD, bytes, pieces, width]
  simp only [Array.getElem?_append, Array.getElem?_extract, Array.size_append,
    Array.size_extract]
  grind

theorem data_zeros (count : Nat) : (zeros count).data = Array.replicate count 0 := by
  fun_induction zeros count with
  | case1 => rfl
  | case2 count _ half even ih =>
    simp only [half, ByteArray.data_append, ih, Array.replicate_append_replicate]
    congr 1
    omega
  | case3 count _ half odd ih =>
    simp only [half, ByteArray.data_push, ByteArray.data_append, ih,
      Array.replicate_append_replicate, ← Array.replicate_succ]
    congr 1
    omega

theorem size_extend? {m n : Memory} {count : Nat} (h : m.extend? count = some n) :
    n.size = m.size + count := by
  obtain ⟨bytes, small⟩ := m
  by_cases fits : bytes.size + count < 2 ^ 63
  · rw [extend?, dif_pos fits] at h
    cases h
    simp only [size, ByteArray.size_append, size_zeros]
  · rw [extend?, dif_neg fits] at h
    cases h

/-- Growing keeps the bytes that were there; the new ones are zero. -/
theorem byte_extend? {m n : Memory} {count j : Nat} (h : m.extend? count = some n) :
    n.byte j = m.byte j := by
  obtain ⟨⟨bytes⟩, small⟩ := m
  by_cases fits : (ByteArray.mk bytes).size + count < 2 ^ 63
  · rw [extend?, dif_pos fits] at h
    cases h
    rw [byte_eq_getD, byte_eq_getD]
    simp only [ByteArray.data_append, data_zeros, Array.getElem?_append,
      Array.getElem?_replicate]
    grind
  · rw [extend?, dif_neg fits] at h
    cases h

end TaggedHeap.Memory
