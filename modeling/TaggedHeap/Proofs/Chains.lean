import Mathlib.Data.List.Nodup
import TaggedHeap.Proofs.Agreement
import TaggedHeap.Proofs.Thread

/-! # The chains of all buckets

The threads of the 32 buckets share one memory. As long as the headers and links of their blocks
do not overlap, pushing a block and unlinking one are edits of a single list, and the other lists
do not notice.
-/

namespace TaggedHeap

/-- The blocks in each bucket, in the order of its chain. -/
abbrev Chains := Nat → List Nat

namespace Memory

theorem blockNamed_zero : blockNamed 0 = none := rfl

theorem blockNamed_of_ne {w : Nat} (h : w ≠ 0) : blockNamed w = some w := if_neg h

theorem getD_blockNamed (w : Nat) : (blockNamed w).getD 0 = w := by
  rcases eq_or_ne w 0 with rfl | hw
  · rfl
  · rw [blockNamed_of_ne hw, Option.getD_some]

theorem blockNamed_inj {v w : Nat} : blockNamed v = blockNamed w ↔ v = w := by
  refine ⟨fun hEq => ?_, congrArg blockNamed⟩
  rw [← getD_blockNamed v, hEq, getD_blockNamed]

/-- Makes a block link back to another one, if there is a block. -/
def linkBack (m : Memory) (block target : Nat) : Memory :=
  if block = 0 then m else m.setWord (block + 8) target

section linkBack

variable {m : Memory} {block target : Nat}

@[simp] theorem size_linkBack : (m.linkBack block target).size = m.size := by
  unfold linkBack
  split
  · rfl
  · exact size_setWord m _ _

theorem word_linkBack_self (hBlock : block ≠ 0) (hInside : block + 12 ≤ m.size)
    (hSmall : target < 2 ^ 32) : (m.linkBack block target).word (block + 8) = target := by
  rw [linkBack, if_neg hBlock]
  exact word_setWord_self hInside hSmall

theorem word_linkBack_of_disjoint {i : Nat} (hInside : block = 0 ∨ block + 12 ≤ m.size)
    (hDisjoint : block = 0 ∨ i + 4 ≤ block + 8 ∨ block + 12 ≤ i) :
    (m.linkBack block target).word i = m.word i := by
  unfold linkBack
  split
  · rfl
  · exact word_setWord_of_disjoint (by omega) (by omega)

theorem AgreeOff.then_linkBack {n : Memory} {s : Nat → Prop} (h : m.AgreeOff n s)
    (hInside : block = 0 ∨ block + 12 ≤ m.size)
    (hSub : ∀ j, block ≠ 0 → block + 8 ≤ j → j < block + 12 → s j) :
    m.AgreeOff (n.linkBack block target) s := by
  unfold linkBack
  split
  · exact h
  · rename_i hBlock
    apply h.then_setWord (by omega)
    intro j hLow hHigh
    exact hSub j hBlock hLow hHigh

theorem linkBack_zero : m.linkBack 0 target = m := if_pos rfl

theorem setPrevious_eq_linkBack (hBlock : block ≠ 0) (hInside : block + 12 ≤ m.size)
    (hSmall : target < 2 ^ 32) :
    m.setPrevious block (blockNamed target) = .ok (m.linkBack block target) := by
  rw [setPrevious_eq_ok hInside (by rwa [getD_blockNamed]), getD_blockNamed, linkBack,
    if_neg hBlock]

theorem setNext_blockNamed (hInside : block + 8 ≤ m.size) (hSmall : target < 2 ^ 32) :
    m.setNext block (blockNamed target) = .ok (m.setWord (block + 4) target) := by
  rw [setNext_eq_ok hInside (by rwa [getD_blockNamed]), getD_blockNamed]

theorem setHead_blockNamed {k : Nat} (hInside : 4 * k + 4 ≤ m.size) (hSmall : target < 2 ^ 32) :
    m.setHead k (blockNamed target) = .ok (m.setWord (4 * k) target) := by
  rw [setHead_eq_ok hInside (by rwa [getD_blockNamed]), getD_blockNamed, Bucket.slot]

theorem clearLinks_eq_ok (hInside : block + 12 ≤ m.size) :
    (m.setNext block none >>= fun m => m.setPrevious block none) =
      .ok ((m.setWord (block + 4) 0).setWord (block + 8) 0) := by
  rw [setNext_eq_ok (by omega) (by decide), ok_bind]
  exact setPrevious_eq_ok (by rwa [size_setWord]) (by decide)

end linkBack

theorem push_eq_ok {m : Memory} {k b : Nat} (hSlot : 4 * k + 4 ≤ m.size) (hBlock : b + 12 ≤ m.size)
    (hZero : b ≠ 0) (hSmall : m.size ≤ 2 ^ 32)
    (hHead : m.word (4 * k) = 0 ∨ m.word (4 * k) + 12 ≤ m.size) :
    m.push k b = .ok ((((m.setWord (b + 4) (m.word (4 * k))).setWord (b + 8) 0).linkBack
      (m.word (4 * k)) b).setWord (4 * k) b) := by
  have hName : some b = blockNamed b := (blockNamed_of_ne hZero).symm
  have hWord : m.word (4 * k) < 2 ^ 32 := m.word_lt _
  rw [push, head_eq_ok hSlot, ok_bind, Bucket.slot, setNext_blockNamed (by omega) hWord, ok_bind,
    setPrevious_eq_ok (by rw [size_setWord]; omega) (by decide), ok_bind, hName]
  rcases eq_or_ne (m.word (4 * k)) 0 with hEmpty | hFirst
  · rw [hEmpty, blockNamed_zero, linkBack_zero]
    dsimp only
    rw [pure_bind, setHead_blockNamed (by simpa only [size_setWord] using hSlot) (by omega),
      Option.getD_none]
  · rw [blockNamed_of_ne hFirst]
    dsimp only
    rw [setPrevious_eq_linkBack hFirst (by simpa only [size_setWord] using hHead.resolve_left hFirst)
      (by omega), ok_bind, setHead_blockNamed
      (by simpa only [size_linkBack, size_setWord] using hSlot) (by omega), Option.getD_none]

theorem unlink_eq_ok {m : Memory} {k b : Nat} (hSlot : 4 * k + 4 ≤ m.size)
    (hBlock : b + 12 ≤ m.size)
    (hNext : m.word (b + 4) = 0 ∨ m.word (b + 4) + 12 ≤ m.size)
    (hPrev : m.word (b + 8) = 0 ∧ b ≠ 0 ∧ m.word (4 * k) = b ∨
      m.word (b + 8) ≠ 0 ∧ m.word (b + 8) + 12 ≤ m.size) :
    m.unlink k b = .ok ((((m.setWord (if m.word (b + 8) = 0 then 4 * k else m.word (b + 8) + 4)
      (m.word (b + 4))).linkBack (m.word (b + 4)) (m.word (b + 8))).setWord (b + 4) 0).setWord
        (b + 8) 0) := by
  have hNextWord : m.word (b + 4) < 2 ^ 32 := m.word_lt _
  have hPrevWord : m.word (b + 8) < 2 ^ 32 := m.word_lt _
  rw [unlink, next_eq_ok (by omega), ok_bind, previous_eq_ok hBlock, ok_bind]
  dsimp only
  rcases hPrev with ⟨hFirst, hZero, hHead⟩ | ⟨hInner, hInside⟩
  · rw [if_pos hFirst, hFirst, blockNamed_zero]
    dsimp only
    rw [head_eq_ok hSlot, ok_bind, Bucket.slot, hHead, blockNamed_of_ne hZero, ensure_eq_ok rfl,
      ok_bind, setHead_blockNamed hSlot hNextWord, ok_bind]
    rcases eq_or_ne (m.word (b + 4)) 0 with hLast | hMore
    · rw [hLast, blockNamed_zero, linkBack_zero]
      dsimp only
      rw [pure_bind]
      exact clearLinks_eq_ok (by rwa [size_setWord])
    · rw [blockNamed_of_ne hMore]
      dsimp only
      rw [← blockNamed_zero, setPrevious_eq_linkBack hMore
        (by simpa only [size_setWord] using hNext.resolve_left hMore) (by decide), ok_bind,
        blockNamed_zero]
      exact clearLinks_eq_ok (by rwa [size_linkBack, size_setWord])
  · rw [if_neg hInner, blockNamed_of_ne hInner]
    dsimp only
    rw [setNext_blockNamed (by omega) hNextWord, ok_bind]
    rcases eq_or_ne (m.word (b + 4)) 0 with hLast | hMore
    · rw [hLast, blockNamed_zero, linkBack_zero]
      dsimp only
      rw [pure_bind]
      exact clearLinks_eq_ok (by rwa [size_setWord])
    · rw [blockNamed_of_ne hMore, ← blockNamed_of_ne hInner]
      dsimp only
      rw [setPrevious_eq_linkBack hMore
        (by simpa only [size_setWord] using hNext.resolve_left hMore) hPrevWord, ok_bind]
      exact clearLinks_eq_ok (by rwa [size_linkBack, size_setWord])

/-- The slot of the bucket, the links of the block, and the back link of the one it is put in
front of. -/
def TouchedByPush (k b first j : Nat) : Prop :=
  (4 * k ≤ j ∧ j < 4 * k + 4) ∨ (b + 4 ≤ j ∧ j < b + 12) ∨
    (first ≠ 0 ∧ first + 8 ≤ j ∧ j < first + 12)

/-- The link that leads to the block, the links of the block, and the back link of the one after
it. -/
def TouchedByUnlink (k b last first j : Nat) : Prop :=
  (last = 0 ∧ 4 * k ≤ j ∧ j < 4 * k + 4) ∨ (last ≠ 0 ∧ last + 4 ≤ j ∧ j < last + 8) ∨
    (b + 4 ≤ j ∧ j < b + 12) ∨ (first ≠ 0 ∧ first + 8 ≤ j ∧ j < first + 12)

theorem push_words {m : Memory} {k b w : Nat} (hk : k < 32) (hLow : 140 ≤ b)
    (hHigh : b + 12 ≤ m.size) (hSmall : m.size ≤ 2 ^ 32) (hWord : m.word (4 * k) = w)
    (hFirst : w = 0 ∨ 140 ≤ w ∧ w + 12 ≤ m.size ∧ (w + 12 ≤ b ∨ b + 12 ≤ w)) :
    ∃ n, m.push k b = .ok n ∧ m.AgreeOff n (TouchedByPush k b w) ∧ n.word (4 * k) = b ∧
      n.word (b + 4) = w ∧ n.word (b + 8) = 0 ∧ (w ≠ 0 → n.word (w + 8) = b) := by
  refine ⟨_, push_eq_ok (by omega) hHigh (by omega) hSmall (by omega), ?_, ?_, ?_, ?_, ?_⟩
  · have hLinks : ∀ j, b + 4 ≤ j → j < b + 12 → TouchedByPush k b w j :=
      fun _ h₁ h₂ => Or.inr (Or.inl ⟨h₁, h₂⟩)
    rw [hWord]
    apply AgreeOff.then_setWord
    · apply AgreeOff.then_linkBack
      · apply AgreeOff.then_setWord
        · exact AgreeOff.setWord (by omega) fun j h₁ h₂ => hLinks j h₁ (by omega)
        · omega
        · exact fun j h₁ h₂ => hLinks j (by omega) (by omega)
      · omega
      · exact fun j h₀ h₁ h₂ => Or.inr (Or.inr ⟨h₀, h₁, h₂⟩)
    · omega
    · exact fun j h₁ h₂ => Or.inl ⟨h₁, h₂⟩
  · exact word_setWord_self (by simp only [size_linkBack, size_setWord]; omega) (by omega)
  · rw [hWord, word_setWord_of_disjoint (by simp only [size_linkBack, size_setWord]; omega)
      (by omega), word_linkBack_of_disjoint (by simp only [size_setWord]; omega) (by omega),
      word_setWord_of_disjoint (by simp only [size_setWord]; omega) (by omega),
      word_setWord_self (by omega) (hWord ▸ m.word_lt _)]
  · rw [hWord, word_setWord_of_disjoint (by simp only [size_linkBack, size_setWord]; omega)
      (by omega), word_linkBack_of_disjoint (by simp only [size_setWord]; omega) (by omega),
      word_setWord_self (by simp only [size_setWord]; omega) (by decide)]
  · intro hw
    rw [hWord, word_setWord_of_disjoint (by simp only [size_linkBack, size_setWord]; omega)
      (by omega), word_linkBack_self hw (by simp only [size_setWord]; omega) (by omega)]

theorem unlink_words {m : Memory} {k b w v : Nat} (hk : k < 32) (hLow : 140 ≤ b)
    (hHigh : b + 12 ≤ m.size) (hNext : m.word (b + 4) = w) (hPrev : m.word (b + 8) = v)
    (hFirst : w = 0 ∨ 140 ≤ w ∧ w + 12 ≤ m.size ∧ (w + 12 ≤ b ∨ b + 12 ≤ w))
    (hLast : v = 0 ∧ m.word (4 * k) = b ∨
      140 ≤ v ∧ v + 12 ≤ m.size ∧ (v + 12 ≤ b ∨ b + 12 ≤ v))
    (hApart : w = 0 ∨ v = 0 ∨ w + 12 ≤ v ∨ v + 12 ≤ w) :
    ∃ n, m.unlink k b = .ok n ∧ m.AgreeOff n (TouchedByUnlink k b v w) ∧
      (v = 0 → n.word (4 * k) = w) ∧ (v ≠ 0 → n.word (v + 4) = w) ∧ n.word (b + 4) = 0 ∧
      n.word (b + 8) = 0 ∧ (w ≠ 0 → n.word (w + 8) = v) := by
  have hRun := unlink_eq_ok (m := m) (k := k) (b := b) (by omega) hHigh (by omega) (by omega)
  rw [hNext, hPrev] at hRun
  generalize hEntry : (if v = 0 then 4 * k else v + 4) = entry at hRun
  have hCases : v = 0 ∧ entry = 4 * k ∨ v ≠ 0 ∧ entry = v + 4 := by
    rcases eq_or_ne v 0 with hv | hv
    · exact Or.inl ⟨hv, by rw [← hEntry, if_pos hv]⟩
    · exact Or.inr ⟨hv, by rw [← hEntry, if_neg hv]⟩
  have hWordSmall : w < 2 ^ 32 := hNext ▸ m.word_lt _
  have hLink : ((((m.setWord entry w).linkBack w v).setWord (b + 4) 0).setWord (b + 8) 0).word
      entry = w := by
    rw [word_setWord_of_disjoint (by simp only [size_linkBack, size_setWord]; omega) (by omega),
      word_setWord_of_disjoint (by simp only [size_linkBack, size_setWord]; omega) (by omega),
      word_linkBack_of_disjoint (by simp only [size_setWord]; omega) (by omega),
      word_setWord_self (by omega) hWordSmall]
  refine ⟨_, hRun, ?_, ?_, ?_, ?_, ?_, ?_⟩
  · have hLinks : ∀ j, b + 4 ≤ j → j < b + 12 → TouchedByUnlink k b v w j :=
      fun _ h₁ h₂ => Or.inr (Or.inr (Or.inl ⟨h₁, h₂⟩))
    apply AgreeOff.then_setWord
    · apply AgreeOff.then_setWord
      · apply AgreeOff.then_linkBack
        · apply AgreeOff.setWord (by omega)
          intro j h₁ h₂
          simp only [TouchedByUnlink]
          omega
        · omega
        · exact fun j h₀ h₁ h₂ => Or.inr (Or.inr (Or.inr ⟨h₀, h₁, h₂⟩))
      · omega
      · exact fun j h₁ h₂ => hLinks j h₁ (by omega)
    · omega
    · exact fun j h₁ h₂ => hLinks j (by omega) (by omega)
  · intro hv
    rw [← (hCases.resolve_right fun h => h.1 hv).2]
    exact hLink
  · intro hv
    rw [← (hCases.resolve_left fun h => hv h.1).2]
    exact hLink
  · rw [word_setWord_of_disjoint (by simp only [size_linkBack, size_setWord]; omega) (by omega),
      word_setWord_self (by simp only [size_linkBack, size_setWord]; omega) (by decide)]
  · exact word_setWord_self (by simp only [size_linkBack, size_setWord]; omega) (by decide)
  · intro hw
    rw [word_setWord_of_disjoint (by simp only [size_linkBack, size_setWord]; omega) (by omega),
      word_setWord_of_disjoint (by simp only [size_linkBack, size_setWord]; omega) (by omega),
      word_linkBack_self hw (by simp only [size_setWord]; omega) (hPrev ▸ m.word_lt _)]

/-- Every bucket has its thread, and the headers and links of all threaded blocks lie apart. -/
structure Threaded (m : Memory) (chains : Chains) : Prop where
  thread : ∀ k < 32, m.Thread (4 * k) 0 (chains k)
  nodup : ∀ k < 32, (chains k).Nodup
  disjoint : ∀ k < 32, ∀ l < 32, k ≠ l → ∀ o ∈ chains k, o ∉ chains l
  inside : ∀ k < 32, ∀ o ∈ chains k, 140 ≤ o ∧ o + 12 ≤ m.size
  apart : ∀ k < 32, ∀ l < 32, ∀ o ∈ chains k, ∀ p ∈ chains l, o ≠ p → o + 12 ≤ p ∨ p + 12 ≤ o

namespace Threaded

variable {m n : Memory} {chains : Chains} {k j b o v w : Nat}

theorem headD_cases (l : List Nat) : l.headD 0 = 0 ∨ l.headD 0 ∈ l := by
  cases l with
  | nil => exact Or.inl rfl
  | cons c l => exact Or.inr List.mem_cons_self

theorem getLastD_cases (l : List Nat) : l = [] ∨ l.getLastD 0 ∈ l := by
  rcases l.eq_nil_or_concat' with rfl | ⟨l, v, rfl⟩
  · exact Or.inl rfl
  · rw [List.getLastD_concat]
    exact Or.inr List.mem_concat_self

theorem ne_headD_of_mem_tail {l : List Nat} (hNodup : l.Nodup) (ho : o ∈ l.tail) :
    o ≠ l.headD 0 := by
  cases l with
  | nil => cases ho
  | cons c l =>
    rintro rfl
    exact (List.nodup_cons.mp hNodup).1 ho

theorem ne_getLastD_of_mem_dropLast {l : List Nat} (hNodup : l.Nodup) (ho : o ∈ l.dropLast) :
    o ≠ l.getLastD 0 := by
  rcases l.eq_nil_or_concat' with rfl | ⟨l, v, rfl⟩
  · cases ho
  · rw [List.dropLast_concat] at ho
    rw [List.getLastD_concat]
    exact (List.nodup_append.mp hNodup).2.2 o ho v List.mem_cons_self

section Links

-- A link of a block in bucket `k` is zero or a block of that bucket.
variable (h : m.Threaded chains) (hk : k < 32) (hj : j < 32)

include h hk

theorem within (hw : w = 0 ∨ w ∈ chains k) : w = 0 ∨ 140 ≤ w ∧ w + 12 ≤ m.size :=
  hw.imp_right (h.inside k hk w)

include hj

theorem far (ho : o ∈ chains j) (hw : w = 0 ∨ w ∈ chains k) (hNe : o ≠ w) :
    w = 0 ∨ o + 12 ≤ w ∨ w + 12 ≤ o :=
  hw.imp_right fun hMem => h.apart j hj k hk o ho w hMem hNe

theorem ne_of_other (hNe : j ≠ k) (ho : o ∈ chains j) (hw : w = 0 ∨ w ∈ chains k) : o ≠ w := by
  rintro rfl
  have hInside := h.inside j hj o ho
  rcases hw with hZero | hMem
  · omega
  · exact h.disjoint j hj k hk hNe o ho hMem

theorem push_keeps (hFresh : ∀ l < 32, ∀ o ∈ chains l, o + 12 ≤ b ∨ b + 12 ≤ o)
    (hw : w = 0 ∨ w ∈ chains k) (hAgree : m.AgreeOff n (TouchedByPush k b w)) (ho : o ∈ chains j) :
    n.word (o + 4) = m.word (o + 4) ∧ (o ≠ w → n.word (o + 8) = m.word (o + 8)) := by
  have hInside := h.inside j hj o ho
  have hOff := hFresh j hj o ho
  have hFirst := h.far hk hj ho hw
  constructor
  · apply hAgree.word
    simp only [TouchedByPush]
    omega
  · intro hNe
    apply hAgree.word
    simp only [TouchedByPush]
    omega

/-- Any other block keeps its link unless it was the last before, its back link unless it was the
first after. -/
theorem unlink_keeps (hb : b ∈ chains k) (hv : v = 0 ∨ v ∈ chains k) (hw : w = 0 ∨ w ∈ chains k)
    (hAgree : m.AgreeOff n (TouchedByUnlink k b v w)) (ho : o ∈ chains j) (hNe : o ≠ b) :
    (o ≠ v → n.word (o + 4) = m.word (o + 4)) ∧ (o ≠ w → n.word (o + 8) = m.word (o + 8)) := by
  have hInside := h.inside j hj o ho
  have hOff := h.apart j hj k hk o ho b hb hNe
  have hLast := h.far hk hj ho hv
  have hFirst := h.far hk hj ho hw
  constructor
  · intro hNe'
    apply hAgree.word
    simp only [TouchedByUnlink]
    omega
  · intro hNe'
    apply hAgree.word
    simp only [TouchedByUnlink]
    omega

end Links

theorem shrink {l : List Nat} (h : m.Threaded chains) (hSize : n.size = m.size)
    (hSub : l ⊆ chains k) (hNodup : l.Nodup)
    (hThread : ∀ j < 32, n.Thread (4 * j) 0 (Function.update chains k l j)) :
    n.Threaded (Function.update chains k l) := by
  have hMem : ∀ j, Function.update chains k l j ⊆ chains j := by
    intro j
    rcases eq_or_ne j k with rfl | hNe
    · rwa [Function.update_self]
    · rw [Function.update_of_ne hNe]
      exact List.Subset.refl _
  refine ⟨hThread, ?_, ?_, ?_, ?_⟩
  · intro j hj
    rcases eq_or_ne j k with rfl | hNe
    · rwa [Function.update_self]
    · rw [Function.update_of_ne hNe]
      exact h.nodup j hj
  · exact fun i hi j hj hNe o ho ho' => h.disjoint i hi j hj hNe o (hMem i ho) (hMem j ho')
  · intro j hj o ho
    rw [hSize]
    exact h.inside j hj o (hMem j ho)
  · exact fun i hi j hj o ho p hp => h.apart i hi j hj o (hMem i ho) p (hMem j hp)

theorem grow (h : m.Threaded chains) (hSize : n.size = m.size) (hLow : 140 ≤ b)
    (hHigh : b + 12 ≤ m.size) (hFresh : ∀ l < 32, ∀ o ∈ chains l, o + 12 ≤ b ∨ b + 12 ≤ o)
    (hThread : ∀ j < 32, n.Thread (4 * j) 0 (Function.update chains k (b :: chains k) j)) :
    n.Threaded (Function.update chains k (b :: chains k)) := by
  have hMem : ∀ j, ∀ o ∈ Function.update chains k (b :: chains k) j, o = b ∧ j = k ∨ o ∈ chains j := by
    intro j o ho
    rcases eq_or_ne j k with rfl | hNe
    · rw [Function.update_self] at ho
      exact (List.mem_cons.mp ho).imp_left fun hEq => ⟨hEq, rfl⟩
    · rw [Function.update_of_ne hNe] at ho
      exact Or.inr ho
  have hNew : ∀ j < 32, b ∉ chains j := by
    intro j hj hb
    have hOff := hFresh j hj b hb
    omega
  refine ⟨hThread, ?_, ?_, ?_, ?_⟩
  · intro j hj
    rcases eq_or_ne j k with rfl | hNe
    · rw [Function.update_self]
      exact List.nodup_cons.mpr ⟨hNew j hj, h.nodup j hj⟩
    · rw [Function.update_of_ne hNe]
      exact h.nodup j hj
  · intro i hi j hj hNe o ho ho'
    rcases hMem i o ho with ⟨rfl, rfl⟩ | hOld
    · rcases hMem j o ho' with ⟨_, rfl⟩ | hOld'
      · exact hNe rfl
      · exact hNew j hj hOld'
    · rcases hMem j o ho' with ⟨rfl, rfl⟩ | hOld'
      · exact hNew i hi hOld
      · exact h.disjoint i hi j hj hNe o hOld hOld'
  · intro j hj o ho
    rw [hSize]
    rcases hMem j o ho with ⟨rfl, rfl⟩ | hOld
    · exact ⟨hLow, hHigh⟩
    · exact h.inside j hj o hOld
  · intro i hi j hj o ho p hp hNe
    rcases hMem i o ho with ⟨rfl, rfl⟩ | hOld
    · rcases hMem j p hp with ⟨rfl, rfl⟩ | hOld'
      · exact absurd rfl hNe
      · exact (hFresh j hj p hOld').symm
    · rcases hMem j p hp with ⟨rfl, rfl⟩ | hOld'
      · exact hFresh i hi o hOld
      · exact h.apart i hi j hj o hOld p hOld' hNe

theorem push (h : m.Threaded chains) (hk : k < 32) (hLow : 140 ≤ b) (hHigh : b + 12 ≤ m.size)
    (hSmall : m.size ≤ 2 ^ 32) (hFresh : ∀ l < 32, ∀ o ∈ chains l, o + 12 ≤ b ∨ b + 12 ≤ o) :
    ∃ n, m.push k b = .ok n ∧ m.AgreeOff n (TouchedByPush k b ((chains k).headD 0)) ∧
      n.Threaded (Function.update chains k (b :: chains k)) := by
  have hFirst := headD_cases (chains k)
  obtain ⟨n, hRun, hAgree, hSlot, hNext, hPrev, hBack⟩ := push_words hk hLow hHigh hSmall
    (h.thread k hk).head (hFirst.imp_right fun hMem =>
      ⟨(h.inside k hk _ hMem).1, (h.inside k hk _ hMem).2, hFresh k hk _ hMem⟩)
  refine ⟨n, hRun, hAgree, h.grow hAgree.size hLow hHigh hFresh ?_⟩
  intro j hj
  have hKeeps := fun o => h.push_keeps (o := o) hk hj hFresh hFirst hAgree
  rcases eq_or_ne j k with rfl | hNe
  · rw [Function.update_self]
    refine ⟨by omega, hSlot, hPrev, (h.thread j hj).rehead (hNext.trans (h.thread j hj).head.symm)
      ?_ (fun o ho => (hKeeps o ho).1) ?_⟩
    · intro o ho
      rw [List.headD_eq_head?_getD, Option.mem_def.mp ho, Option.getD_some] at hBack
      exact hBack (by have := h.inside j hj o (List.mem_of_mem_head? ho); omega)
    · intro o ho
      exact (hKeeps o (List.mem_of_mem_tail ho)).2 (ne_headD_of_mem_tail (h.nodup j hj) ho)
  · rw [Function.update_of_ne hNe]
    refine (h.thread j hj).congr ?_ (fun o ho => (hKeeps o ho).1)
      fun o ho => (hKeeps o ho).2 (h.ne_of_other hk hj hNe ho hFirst)
    apply hAgree.word
    have hWithin := h.within hk hFirst
    simp only [TouchedByPush]
    omega

/-- The rest of a chain around one of its blocks. -/
structure Around (chain l₁ : List Nat) (b : Nat) (l₂ : List Nat) : Prop where
  block : b ∈ chain
  sub : l₁ ++ l₂ ⊆ chain
  nodup : (l₁ ++ l₂).Nodup
  ne : ∀ o ∈ l₁ ++ l₂, o ≠ b
  last : l₁.getLastD 0 = 0 ∨ l₁.getLastD 0 ∈ l₁
  first : l₂.headD 0 = 0 ∨ l₂.headD 0 ∈ l₂

namespace Around

variable {chain l₁ l₂ : List Nat}

theorem of_nodup (h : (l₁ ++ b :: l₂).Nodup) : Around (l₁ ++ b :: l₂) l₁ b l₂ where
  block := List.mem_append_right l₁ List.mem_cons_self
  sub _ ho := List.mem_append.mpr ((List.mem_append.mp ho).imp_right (List.mem_cons_of_mem b))
  nodup := (List.nodup_cons.mp (List.nodup_middle.mp h)).2
  ne := by
    rintro o ho rfl
    exact (List.nodup_cons.mp (List.nodup_middle.mp h)).1 ho
  last := (getLastD_cases l₁).imp_left fun hNil => by rw [hNil]; rfl
  first := headD_cases l₂

variable (h : Around chain l₁ b l₂)

include h

theorem last_mem : l₁.getLastD 0 = 0 ∨ l₁.getLastD 0 ∈ chain :=
  h.last.imp_right fun hMem => h.sub (List.mem_append_left l₂ hMem)

theorem first_mem : l₂.headD 0 = 0 ∨ l₂.headD 0 ∈ chain :=
  h.first.imp_right fun hMem => h.sub (List.mem_append_right l₁ hMem)

theorem ne_last (hZero : o ≠ 0) (ho : o ∈ l₁.dropLast ++ l₂) : o ≠ l₁.getLastD 0 := by
  obtain ⟨hNodup, _, hApart⟩ := List.nodup_append.mp h.nodup
  rcases List.mem_append.mp ho with ho | ho
  · exact ne_getLastD_of_mem_dropLast hNodup ho
  · rintro rfl
    rcases h.last with hEq | hMem
    · exact hZero hEq
    · exact hApart _ hMem _ ho rfl

theorem ne_first (hZero : o ≠ 0) (ho : o ∈ l₁ ++ l₂.tail) : o ≠ l₂.headD 0 := by
  obtain ⟨_, hNodup, hApart⟩ := List.nodup_append.mp h.nodup
  rcases List.mem_append.mp ho with ho | ho
  · rintro rfl
    rcases h.first with hEq | hMem
    · exact hZero hEq
    · exact hApart _ ho _ hMem rfl
  · exact ne_headD_of_mem_tail hNodup ho

end Around

section Unlink

variable {l₁ l₂ : List Nat} (h : m.Threaded chains) (hk : k < 32)
  (hAround : Around (chains k) l₁ b l₂)
  (hAgree : m.AgreeOff n (TouchedByUnlink k b (l₁.getLastD 0) (l₂.headD 0)))

include h hk hAround

theorem neighbour (hMem : o ∈ l₁ ++ l₂) :
    140 ≤ o ∧ o + 12 ≤ m.size ∧ (o + 12 ≤ b ∨ b + 12 ≤ o) := by
  have hIn := hAround.sub hMem
  have hInside := h.inside k hk o hIn
  exact ⟨hInside.1, hInside.2, h.apart k hk k hk o hIn b hAround.block (hAround.ne o hMem)⟩

theorem neighbours_apart : l₂.headD 0 = 0 ∨ l₁.getLastD 0 = 0 ∨
    l₂.headD 0 + 12 ≤ l₁.getLastD 0 ∨ l₁.getLastD 0 + 12 ≤ l₂.headD 0 := by
  rcases hAround.first with hZero | hMem
  · exact Or.inl hZero
  · have hIn := hAround.sub (List.mem_append_right l₁ hMem)
    have hInside := h.inside k hk _ hIn
    exact Or.inr (h.far hk hk hIn hAround.last_mem
      (hAround.ne_last (by omega) (List.mem_append_right l₁.dropLast hMem)))

include hAgree

theorem unlink_other (hj : j < 32) (hNe : j ≠ k) : n.Thread (4 * j) 0 (chains j) := by
  have hWithin := h.within hk hAround.first_mem
  have hWithin' := h.within hk hAround.last_mem
  have hBlock := h.inside k hk b hAround.block
  have hKeeps := fun o ho => h.unlink_keeps (o := o) hk hj hAround.block hAround.last_mem
    hAround.first_mem hAgree ho (h.ne_of_other hk hj hNe ho (Or.inr hAround.block))
  apply (h.thread j hj).congr
  · apply hAgree.word
    simp only [TouchedByUnlink]
    omega
  · exact fun o ho => (hKeeps o ho).1 (h.ne_of_other hk hj hNe ho hAround.last_mem)
  · exact fun o ho => (hKeeps o ho).2 (h.ne_of_other hk hj hNe ho hAround.first_mem)

theorem unlink_own (hThread : m.Thread (4 * k) 0 (l₁ ++ b :: l₂))
    (hSlot : l₁.getLastD 0 = 0 → n.word (4 * k) = l₂.headD 0)
    (hLink : l₁.getLastD 0 ≠ 0 → n.word (l₁.getLastD 0 + 4) = l₂.headD 0)
    (hBack : l₂.headD 0 ≠ 0 → n.word (l₂.headD 0 + 8) = l₁.getLastD 0) :
    n.Thread (4 * k) 0 (l₁ ++ l₂) := by
  obtain ⟨_, hRest, _⟩ := hThread.read
  have hWithin := h.within hk hAround.first_mem
  have hBlock := h.inside k hk b hAround.block
  have hKeeps := fun o ho => h.unlink_keeps (o := o) hk hk hAround.block hAround.last_mem
    hAround.first_mem hAgree (hAround.sub ho) (hAround.ne o ho)
  have hNear := fun o ho => h.neighbour (o := o) hk hAround ho
  apply hThread.leave
  · intro hNil
    exact (hSlot (by rw [hNil]; rfl)).trans hRest.head.symm
  · intro hCons
    have hInside := hNear _ (List.mem_append_left l₂ ((getLastD_cases l₁).resolve_left hCons))
    apply hAgree.word
    simp only [TouchedByUnlink]
    omega
  · intro u hu
    have hInside := hNear u (List.mem_append_left l₂ (List.mem_of_getLast? hu))
    rw [List.getLastD_eq_getLast?, Option.mem_def.mp hu, Option.getD_some] at hLink
    exact (hLink (by omega)).trans hRest.head.symm
  · intro o ho
    have hInside := hNear o (List.mem_append_right l₁ (List.mem_of_mem_head? ho))
    rw [List.headD_eq_head?_getD, Option.mem_def.mp ho, Option.getD_some] at hBack
    exact hBack (by omega)
  · intro o ho
    have hMem : o ∈ l₁ ++ l₂ :=
      List.mem_append.mpr ((List.mem_append.mp ho).imp_left fun hIn => List.dropLast_subset l₁ hIn)
    have hInside := hNear o hMem
    exact (hKeeps o hMem).1 (hAround.ne_last (by omega) ho)
  · intro o ho
    have hMem : o ∈ l₁ ++ l₂ :=
      List.mem_append.mpr ((List.mem_append.mp ho).imp_right List.mem_of_mem_tail)
    have hInside := hNear o hMem
    exact (hKeeps o hMem).2 (hAround.ne_first (by omega) ho)

end Unlink

theorem unlink (h : m.Threaded chains) (hk : k < 32) {l₁ l₂ : List Nat}
    (hSplit : chains k = l₁ ++ b :: l₂) :
    ∃ n, m.unlink k b = .ok n ∧
      m.AgreeOff n (TouchedByUnlink k b (l₁.getLastD 0) (l₂.headD 0)) ∧ n.word (b + 4) = 0 ∧
      n.word (b + 8) = 0 ∧ n.Threaded (Function.update chains k (l₁ ++ l₂)) := by
  have hThread : m.Thread (4 * k) 0 (l₁ ++ b :: l₂) := hSplit ▸ h.thread k hk
  have hAround : Around (chains k) l₁ b l₂ := by
    have hNodup := h.nodup k hk
    rw [hSplit] at hNodup ⊢
    exact Around.of_nodup hNodup
  obtain ⟨hPrev, hRest, hEntry⟩ := hThread.read
  obtain ⟨hLow, hHigh⟩ := h.inside k hk b hAround.block
  obtain ⟨n, hRun, hAgree, hSlot, hLink, hClear, hClear', hBack⟩ := unlink_words hk hLow hHigh
    hRest.head hPrev
    (hAround.first.imp_right fun hMem => h.neighbour hk hAround (List.mem_append_right l₁ hMem))
    (hEntry.imp_right fun hMem => h.neighbour hk hAround (List.mem_append_left l₂ hMem))
    (h.neighbours_apart hk hAround)
  refine ⟨n, hRun, hAgree, hClear, hClear', h.shrink hAgree.size hAround.sub hAround.nodup ?_⟩
  intro j hj
  rcases eq_or_ne j k with rfl | hNe
  · rw [Function.update_self]
    exact h.unlink_own hk hAround hAgree hThread hSlot hLink hBack
  · rw [Function.update_of_ne hNe]
    exact h.unlink_other hk hAround hAgree hj hNe

end Threaded

end Memory

end TaggedHeap
