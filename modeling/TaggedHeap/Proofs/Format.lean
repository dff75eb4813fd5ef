import TaggedHeap.Proofs.Place
import TaggedHeap.Space.Format

/-! # Formatting and annexing

Formatting makes a memory show one free block, or none. Annexing adds a block at the end, which is
in no bucket yet. A reclaimed space of eight bytes is the exception: a block of that size has no
room for its links, and putting it into a bucket writes over the epilogue.
-/

namespace TaggedHeap

namespace Shape

def bare : Shape := ⟨[], fun _ => []⟩

def whole (size : Nat) : Shape :=
  ⟨[⟨140, size, false⟩], Chains.insert (fun _ => []) ⟨140, size, false⟩⟩

/-- All the space in one free block. -/
def unused (size : Nat) : Shape := if 0 < size then whole size else bare

theorem settled_bare : bare.Settled where
  large b hb := by cases hb
  fenced := List.IsChain.nil
  complete b hb := by cases hb

theorem mem_whole {size k o : Nat} :
    o ∈ (whole size).chains k ↔ Bucket.ofSize? size = some k ∧ o = 140 := by
  rw [whole, Chains.mem_insert]
  exact or_iff_left List.not_mem_nil

theorem settled_whole {size : Nat} (hLarge : 32 ≤ size) (hSmall : size ≤ 2 ^ 31) :
    (whole size).Settled where
  large b hb := by
    rw [List.mem_singleton.mp hb]
    exact hLarge
  fenced := List.IsChain.singleton _
  complete b hb _ := by
    obtain ⟨k, _, hBucket⟩ := Bucket.ofSize?_of_le hSmall
    rw [List.mem_singleton.mp hb]
    exact ⟨k, mem_whole.mpr ⟨hBucket, rfl⟩⟩

theorem settled_unused {size : Nat} (hLarge : size = 0 ∨ 32 ≤ size) (hSmall : size ≤ 2 ^ 31) :
    (unused size).Settled := by
  unfold unused
  split
  · exact settled_whole (by omega) hSmall
  · exact settled_bare

theorem absorbed_unused (size count : Nat) :
    absorbed (unused size).blocks ⟨140 + size, count, false⟩ [] = ⟨140, size + count, false⟩ := by
  rcases Nat.eq_zero_or_pos size with rfl | hPos
  · rw [Nat.zero_add]
    rfl
  · rw [unused, if_pos hPos]
    rfl

theorem settle_unused (size count : Nat) :
    settle (unused size).blocks ⟨140 + size, count, false⟩ [] (unused size).chains =
      whole (size + count) := by
  have hChains : (unused size).chains.clear 140 (140 + (size + count)) = fun _ => [] := by
    funext k
    refine List.filter_eq_nil_iff.mpr fun o ho => ?_
    rcases Nat.eq_zero_or_pos size with rfl | hPos
    · exact absurd ho List.not_mem_nil
    · rw [unused, if_pos hPos] at ho
      rw [(mem_whole.mp ho).2, decide_eq_true_eq]
      omega
  rw [settle, absorbed_unused]
  dsimp only
  rw [hChains, whole]
  rcases Nat.eq_zero_or_pos size with rfl | hPos
  · rfl
  · rw [unused, if_pos hPos]
    rfl

end Shape

namespace Memory

theorem word_of_bytes {m n : Memory} {i : Nat} (hOld : i + 4 ≤ m.size) (hNew : i + 4 ≤ n.size)
    (h : ∀ j, i ≤ j → j < i + 4 → n.byte j = m.byte j) : n.word i = m.word i := by
  rw [word_of_le hOld, word_of_le hNew, h i (by omega) (by omega), h (i + 1) (by omega) (by omega),
    h (i + 2) (by omega) (by omega), h (i + 3) (by omega) (by omega)]

variable {m n : Memory} {T : Tagging} {bs : List Block} {chains : Chains}

/-- What annexing writes: the tags of a block in the place of the epilogue, and a new epilogue. -/
structure Annexed (m p : Memory) (count : Nat) : Prop where
  size : p.size = m.size + count
  byte : ∀ j, j + 4 < m.size ∨ m.size ≤ j ∧ j + 8 < m.size + count → p.byte j = m.byte j
  header : p.word (m.size - 4) = count
  footer : p.word (m.size + count - 8) = count
  epilogue : p.word (m.size + count - 4) = 1

theorem annex_eq_ok {count : Nat} (hExtend : m.extend? count = some n) (hLow : 4 ≤ m.size)
    (hMin : 8 ≤ count) (hMod : count % 8 = 0) (hSmall : m.size + count ≤ 2 ^ 31) :
    ∃ p, n.annex m.size count = .ok (m.size - 4, p) ∧ m.Annexed p count := by
  have hSize := size_extend? hExtend
  obtain ⟨n₁, hWrite, hAgree₁, hHeader, hFooter⟩ := writeTags_words (m := n)
    (b := ⟨m.size - 4, count, false⟩) hMin hMod (by dsimp only; omega) (by omega)
  have hSize₁ := hAgree₁.size
  refine ⟨n₁.setWord (m.size + count - 4) 1, ?_, ?_, ?_, ?_, ?_, ?_⟩
  · rw [Memory.annex, minus_eq_ok hLow, ok_bind,
      Block.free_tag (b := ⟨m.size - 4, count, false⟩) rfl hMod (by dsimp only; omega), ok_bind,
      hWrite, ok_bind,
      plus_eq_ok (by omega), ok_bind, minus_eq_ok (by omega), ok_bind,
      show Tag.epilogue.word = 1 from rfl, write_eq_ok (by omega) (by decide), ok_bind]
    rfl
  · rw [size_setWord, hSize₁, hSize]
  · intro j hj
    rw [byte_setWord_of_disjoint (by omega) (by omega), hAgree₁.byte j, byte_extend? hExtend]
    simp only [InTags]
    omega
  · rw [word_setWord_of_disjoint (by omega) (by omega)]
    exact hHeader
  · rw [word_setWord_of_disjoint (by omega) (by omega),
      show m.size + count - 8 = m.size - 4 + count - 4 by omega]
    exact hFooter
  · rw [word_setWord_self (by omega) (by decide)]

theorem Annexed.word {p : Memory} {count i : Nat} (h : m.Annexed p count) (hi : i + 8 ≤ m.size) :
    p.word i = m.word i := by
  have hSize := h.size
  exact word_of_bytes (by omega) (by omega) fun j _ hj => h.byte j (by omega)

/-- A block at the end of a memory that has just grown takes the place of the epilogue. -/
theorem Shows.annex {count : Nat} (h : m.Shows ⟨bs, chains⟩ T)
    (hExtend : m.extend? count = some n) (hMin : 8 ≤ count) (hMod : count % 8 = 0) (hSmall : m.size + count ≤ 2 ^ 31) :
    ∃ p, n.annex m.size count = .ok (m.size - 4, p) ∧ m.Annexed p count ∧
      p.Shows ⟨bs ++ [⟨m.size - 4, count, false⟩], chains⟩ T := by
  have hLe := h.le_size
  obtain ⟨p, hRun, hAnnexed⟩ := annex_eq_ok hExtend (by omega) hMin hMod hSmall
  have hSize := hAnnexed.size
  refine ⟨p, hRun, hAnnexed, ?_⟩
  refine ⟨?_, by omega, ?_, ?_, ?_, ?_, ?_, ?_⟩
  · rw [hSize]
    refine h.tiling.append ⟨rfl, hMin, hMod, ?_⟩
    simp only [Tiling]
    omega
  · rw [hAnnexed.word (by omega), h.prologueHeader]
  · rw [hAnnexed.word (by omega), h.prologueFooter]
  · rw [hSize, hAnnexed.epilogue]
  · intro b hb
    rcases List.mem_append.mp hb with hOld | hNew
    · have hBounds := h.bounds hOld
      rw [hAnnexed.word (by omega), hAnnexed.word (by omega)]
      exact h.tags b hOld
    · rw [List.mem_singleton.mp hNew]
      dsimp only
      rw [show m.size - 4 + count - 4 = m.size + count - 8 by omega, hAnnexed.header,
        hAnnexed.footer]
      exact T.written (b := ⟨m.size - 4, count, false⟩) hMod
  · intro k hk
    apply (h.thread k hk).congr (hAnnexed.word (by omega))
    · intro o ho
      obtain ⟨b, hb, rfl, _, hLarge, _⟩ := h.listed.node k o ho
      have hBounds := h.bounds hb
      exact hAnnexed.word (by omega)
    · intro o ho
      obtain ⟨b, hb, rfl, _, hLarge, _⟩ := h.listed.node k o ho
      have hBounds := h.bounds hb
      exact hAnnexed.word (by omega)
  · refine ⟨fun k o ho => ?_, h.listed.nodup⟩
    obtain ⟨b, hb, hFacts⟩ := h.listed.node k o ho
    exact ⟨b, List.mem_append_left _ hb, hFacts⟩

/-- The directory and the sentinels as formatting writes them. -/
structure Bared (m : Memory) : Prop where
  slots : ∀ k < 32, m.word (4 * k) = 0
  prologueHeader : m.word 132 = 9
  prologueFooter : m.word 136 = 9
  epilogue : m.word (m.size - 4) = 1

/-- Formatting comes down to tagging the space between the sentinels, if there is any. -/
theorem format_eq (hLow : 144 ≤ m.size) (hHigh : m.size ≤ 2 ^ 31) :
    ∃ n, n.size = m.size ∧ n.Bared ∧ m.format =
      if 0 < m.size - 144 then do
        let n ← n.writeTags 140 (← Tag.free (m.size - 144))
        let n ← n.insertFree 140
        pure (m.size - 144, n)
      else pure (m.size - 144, n) := by
  obtain ⟨m₁, hClear, hSize₁, hSlots, _⟩ := clearHeads_eq_ok (show 4 * 32 ≤ m.size by omega)
  have hSize₂ : (m₁.setWord 128 0).size = m.size := by rw [size_setWord, hSize₁]
  obtain ⟨m₃, hTags, hAgree₃, hHeader, hFooter⟩ := writeTags_words (m := m₁.setWord 128 0)
    (b := ⟨132, 8, true⟩) le_rfl rfl (by dsimp only; omega) (by omega)
  have hSize₃ := hAgree₃.size
  refine ⟨m₃.setWord (m.size - 4) 1, by rw [size_setWord, hSize₃, hSize₂], ⟨?_, ?_, ?_, ?_⟩, ?_⟩
  · intro k hk
    rw [word_setWord_of_disjoint (by omega) (by omega), hAgree₃.word (by simp only [InTags]; omega),
      word_setWord_of_disjoint (by omega) (by omega), hSlots k hk]
  · rw [word_setWord_of_disjoint (by omega) (by omega)]
    exact hHeader
  · rw [word_setWord_of_disjoint (by omega) (by omega)]
    exact hFooter
  · rw [size_setWord, hSize₃, hSize₂, word_setWord_self (by omega) (by decide)]
  · rw [format]
    dsimp only [Layout.firstBlock, Layout.bucketCount, Layout.padding, Layout.prologue,
      Layout.prologueSize]
    rw [minus_eq_ok (by omega), ok_bind, minus_eq_ok (by omega), ok_bind, hClear, ok_bind,
      write_eq_ok (by omega) (by decide), ok_bind,
      Block.allocated_tag (b := ⟨132, 8, true⟩) rfl rfl (by decide), ok_bind, hTags, ok_bind,
      show Tag.epilogue.word = 1 from rfl, write_eq_ok (by omega) (by decide), ok_bind, Nat.sub_sub]

theorem Bared.shows (h : m.Bared) (hSize : m.size = 144) : m.Shows Shape.bare where
  tiling := by rw [hSize]; exact Tiling.nil 140
  size_le := by omega
  prologueHeader := h.prologueHeader
  prologueFooter := h.prologueFooter
  epilogue := h.epilogue
  tags b hb := by cases hb
  thread k hk := h.slots k hk
  listed := ⟨fun _ _ ho => absurd ho List.not_mem_nil, fun _ => List.nodup_nil⟩

theorem format_shows (hLow : 144 ≤ m.size) (hHigh : m.size ≤ 2 ^ 31) (hMod : m.size % 8 = 0)
    (hNarrow : m.size ≠ 152) :
    ∃ n, m.format = .ok (m.size - 144, n) ∧ n.size = m.size ∧
      n.Shows (Shape.unused (m.size - 144)) := by
  obtain ⟨n, hSize, hBared, hFormat⟩ := format_eq hLow hHigh
  rcases Nat.eq_or_lt_of_le hLow with hBare | hSpace
  · rw [if_neg (by omega)] at hFormat
    refine ⟨n, hFormat, hSize, ?_⟩
    rw [Shape.unused, if_neg (by omega)]
    exact hBared.shows (by omega)
  · rw [if_pos (by omega), Block.free_tag (b := ⟨140, m.size - 144, false⟩) rfl
      (by dsimp only; omega) (by dsimp only; omega), ok_bind] at hFormat
    obtain ⟨n₁, hWrite, hAgree₁, hHeader, hFooter⟩ := writeTags_words (m := n)
      (b := ⟨140, m.size - 144, false⟩) (by dsimp only; omega) (by dsimp only; omega)
      (by dsimp only; omega) (by omega)
    have hSize₁ := hAgree₁.size
    have hSame : ∀ i, i + 4 ≤ 140 ∨ m.size - 4 ≤ i → n₁.word i = n.word i := by
      intro i hi
      apply hAgree₁.word
      simp only [InTags]
      omega
    have hShows₁ : n₁.Shows ⟨[⟨140, m.size - 144, false⟩], fun _ => []⟩ := by
      refine ⟨?_, by omega, ?_, ?_, ?_, ?_, ?_, ?_⟩
      · refine ⟨rfl, by dsimp only; omega, by dsimp only; omega, ?_⟩
        simp only [Tiling]
        omega
      · rw [hSame 132 (by omega), hBared.prologueHeader]
      · rw [hSame 136 (by omega), hBared.prologueFooter]
      · rw [hSize₁, hSame _ (by omega), hBared.epilogue]
      · intro b hb
        rw [List.mem_singleton.mp hb]
        exact ⟨hHeader, hFooter⟩
      · intro k hk
        exact (hSame _ (by omega)).trans (hBared.slots k hk)
      · exact ⟨fun _ _ ho => absurd ho List.not_mem_nil, fun _ => List.nodup_nil⟩
    obtain ⟨n₂, hInsert, hAgree₂, hShows₂⟩ := hShows₁.insertFree List.mem_cons_self rfl
      (by dsimp only; omega) (fun _ hk => absurd hk List.not_mem_nil)
    refine ⟨n₂, ?_, by rw [hAgree₂.size, hSize₁, hSize], ?_⟩
    · rw [hFormat, hWrite, ok_bind, hInsert, ok_bind]
      rfl
    · rwa [Shape.unused, if_pos (by omega)]

end Memory

end TaggedHeap
