import TaggedHeap.Proofs.Chains
import TaggedHeap.Proofs.Tiling

/-! # Shapes

The shape of a heap is what its bytes mean: the blocks in the order of their offsets and the
blocks in each bucket. A memory shows a shape if its tags, sentinels, links and slots say so. Blocks
may be free and in no bucket, or free side by side: that is how a shape looks in the middle of an
operation.
-/

namespace TaggedHeap

theorem Bucket.ofSize?_of_le {size : Nat} (h : size ≤ 2 ^ 31) :
    ∃ k < 32, Bucket.ofSize? size = some k := by
  cases hBucket : Bucket.ofSize? size with
  | some k => exact ⟨k, (Bucket.ofSize?_eq_some_iff.mp hBucket).1, rfl⟩
  | none =>
    rw [Bucket.ofSize?, List.find?_eq_none] at hBucket
    exact absurd (decide_eq_true h) (hBucket 31 (by decide))

structure Shape where
  blocks : List Block
  chains : Chains

namespace Chains

/-- The chains without the blocks between two offsets. -/
def clear (chains : Chains) (lo hi : Nat) : Chains :=
  fun k => (chains k).filter fun o => o < lo ∨ hi ≤ o

/-- The chains with a block in front of the bucket for its size. -/
def insert (chains : Chains) (b : Block) : Chains :=
  fun k => if Bucket.ofSize? b.size = some k then b.offset :: chains k else chains k

theorem mem_clear {chains : Chains} {lo hi k o : Nat} :
    o ∈ chains.clear lo hi k ↔ o ∈ chains k ∧ (o < lo ∨ hi ≤ o) := by
  rw [clear, List.mem_filter, decide_eq_true_eq]

theorem mem_insert {chains : Chains} {b : Block} {k o : Nat} :
    o ∈ chains.insert b k ↔ Bucket.ofSize? b.size = some k ∧ o = b.offset ∨ o ∈ chains k := by
  unfold insert
  split
  · rename_i h
    rw [List.mem_cons]
    simp only [h, true_and]
  · rename_i h
    simp only [h, false_and, false_or]

theorem insert_eq_update {chains : Chains} {b : Block} {k : Nat}
    (h : Bucket.ofSize? b.size = some k) :
    chains.insert b = Function.update chains k (b.offset :: chains k) := by
  funext l
  rcases eq_or_ne l k with rfl | hlk
  · rw [Function.update_self, insert, if_pos h]
  · rw [Function.update_of_ne hlk, insert, if_neg]
    rw [h]
    exact fun hEq => hlk (Option.some.inj hEq).symm

theorem clear_eq_self {chains : Chains} {lo hi : Nat} (h : ∀ k, ∀ o ∈ chains k, o < lo ∨ hi ≤ o) :
    chains.clear lo hi = chains := by
  funext k
  exact List.filter_eq_self.mpr fun o ho => decide_eq_true (h k o ho)

/-- The bytes of the directory and of the links of what is in the chains. -/
def Links (chains : Chains) (j : Nat) : Prop :=
  j < 128 ∨ ∃ k, ∃ o ∈ chains k, o + 4 ≤ j ∧ j < o + 12

theorem Links.of_clear {chains : Chains} {lo hi j : Nat} (h : (chains.clear lo hi).Links j) :
    chains.Links j := by
  rcases h with hSlot | ⟨k, o, ho, hLink⟩
  · exact Or.inl hSlot
  · exact Or.inr ⟨k, o, (mem_clear.mp ho).1, hLink⟩

theorem Links.of_insert {chains : Chains} {b : Block} {j : Nat} (h : (chains.insert b).Links j) :
    chains.Links j ∨ b.offset + 4 ≤ j ∧ j < b.offset + 12 := by
  rcases h with hSlot | ⟨k, o, ho, hLink⟩
  · exact Or.inl (Or.inl hSlot)
  · rcases mem_insert.mp ho with ⟨_, rfl⟩ | hOld
    · exact Or.inr hLink
    · exact Or.inl (Or.inr ⟨k, o, hOld, hLink⟩)

theorem clear_before (chains : Chains) {lo mid hi : Nat} (hLow : lo ≤ mid) (hHigh : mid ≤ hi) :
    (chains.clear mid hi).clear lo mid = chains.clear lo hi := by
  funext k
  simp only [clear, List.filter_filter, ← Bool.decide_and]
  apply List.filter_congr
  intro o _
  rw [decide_eq_decide]
  omega

theorem clear_after (chains : Chains) {lo mid hi : Nat} (hLow : lo ≤ mid) (hHigh : mid ≤ hi) :
    (chains.clear lo mid).clear mid hi = chains.clear lo hi := by
  funext k
  simp only [clear, List.filter_filter, ← Bool.decide_and]
  apply List.filter_congr
  intro o _
  rw [decide_eq_decide]
  omega

theorem clear_clear (chains : Chains) (lo hi : Nat) : (chains.clear lo hi).clear lo hi = chains.clear lo hi := by
  funext k
  simp only [clear, List.filter_filter, Bool.and_self]

theorem clear_insert {chains : Chains} {b : Block} {lo hi : Nat} (hLow : lo ≤ b.offset)
    (hHigh : b.offset < hi) :
    (chains.insert b).clear lo hi = chains.clear lo hi := by
  have hGone : ¬ decide (b.offset < lo ∨ hi ≤ b.offset) = true := by
    rw [decide_eq_true_eq]
    omega
  funext k
  unfold clear insert
  split
  · rw [List.filter_cons, if_neg hGone]
  · rfl

theorem clear_foldl_insert {chains : Chains} {bs : List Block} {lo hi : Nat}
    (hBs : ∀ b ∈ bs, lo ≤ b.offset ∧ b.offset < hi) :
    (bs.foldl insert chains).clear lo hi = chains.clear lo hi := by
  induction bs generalizing chains with
  | nil => rfl
  | cons b bs ih =>
    obtain ⟨hLow, hHigh⟩ := hBs b List.mem_cons_self
    rw [List.foldl_cons, ih fun c hc => hBs c (List.mem_cons_of_mem b hc),
      clear_insert hLow hHigh]

end Chains

/-- What is in a bucket is a free block of that bucket, and is there once. -/
structure Shape.Listed (s : Shape) : Prop where
  node : ∀ k, ∀ o ∈ s.chains k, ∃ b ∈ s.blocks, b.offset = o ∧ b.allocated = false ∧
    16 ≤ b.size ∧ Bucket.ofSize? b.size = some k
  nodup : ∀ k, (s.chains k).Nodup

/-- The bytes of the directory and of the links of free blocks. -/
def Linkage (bs : List Block) (j : Nat) : Prop :=
  j < 128 ∨ ∃ b ∈ bs, b.allocated = false ∧ 16 ≤ b.size ∧ b.offset + 4 ≤ j ∧ j < b.offset + 12

theorem Shape.Listed.linkage {s : Shape} (h : s.Listed) {j : Nat} (hLinks : s.chains.Links j) :
    Linkage s.blocks j := by
  rcases hLinks with hSlot | ⟨k, o, ho, hLink⟩
  · exact Or.inl hSlot
  · obtain ⟨b, hb, rfl, hFree, hLarge, _⟩ := h.node k o ho
    exact Or.inr ⟨b, hb, hFree, hLarge, hLink⟩

/-- What may stand in the header and in the footer of a block. A header has to describe its block, a
free block has the same word twice, and what a heap writes itself is always accepted. -/
structure Tagging where
  fits : Block → Nat → Nat → Prop
  written : ∀ {b}, b.size % 8 = 0 → fits b b.word b.word
  header : ∀ {b header footer}, fits b header footer → b.size % 8 = 0 →
    (Tag.mk header).size = b.size ∧ (Tag.mk header).isAllocated = b.allocated
  footer : ∀ {b header footer}, fits b header footer → b.allocated = false → footer = header

/-- Both tags are what a heap writes. -/
def Tagging.exact : Tagging where
  fits b header footer := header = b.word ∧ footer = b.word
  written _ := ⟨rfl, rfl⟩
  header := by
    rintro b _ _ ⟨rfl, rfl⟩ hMod
    exact ⟨Block.tag_word_size hMod, Block.tag_word_isAllocated hMod⟩
  footer := by
    rintro b _ _ ⟨rfl, rfl⟩ _
    rfl

/-- The memory is laid out as the shape says. -/
structure Memory.Shows (m : Memory) (s : Shape) (T : Tagging := .exact) : Prop where
  tiling : Tiling 140 s.blocks (m.size - 4)
  size_le : m.size ≤ 2 ^ 31
  prologueHeader : m.word 132 = 9
  prologueFooter : m.word 136 = 9
  epilogue : m.word (m.size - 4) = 1
  tags : ∀ b ∈ s.blocks, T.fits b (m.word b.offset) (m.word (b.offset + b.size - 4))
  thread : ∀ k < 32, m.Thread (4 * k) 0 (s.chains k)
  listed : s.Listed

def InTags (b : Block) (j : Nat) : Prop :=
  (b.offset ≤ j ∧ j < b.offset + 4) ∨ (b.offset + b.size - 4 ≤ j ∧ j < b.offset + b.size)

theorem Memory.writeTags_words {m : Memory} {b : Block} (hSize : 8 ≤ b.size) (hMod : b.size % 8 = 0)
    (hInside : b.offset + b.size ≤ m.size) (hSmall : m.size ≤ 2 ^ 31) :
    ∃ n, m.writeTags b.offset ⟨b.word⟩ = .ok n ∧ m.AgreeOff n (InTags b) ∧
      n.word b.offset = b.word ∧ n.word (b.offset + b.size - 4) = b.word := by
  have hTag := Block.tag_word_size hMod
  have hWord : b.word < 2 ^ 32 := by
    have hBit := b.allocated.toNat_le
    simp only [Block.word]
    omega
  refine ⟨_, writeTags_eq_ok hWord (by rwa [hTag]) (by rwa [hTag]), ?_, ?_, ?_⟩
  · rw [hTag]
    apply AgreeOff.then_setWord
    · exact AgreeOff.setWord (by omega) fun j h₁ h₂ => Or.inl ⟨h₁, h₂⟩
    · omega
    · exact fun j h₁ h₂ => Or.inr ⟨h₁, by omega⟩
  · rw [hTag, word_setWord_of_disjoint (by rw [size_setWord]; omega) (by omega),
      word_setWord_self (by omega) hWord]
  · rw [hTag, word_setWord_self (by rw [size_setWord]; omega) hWord]

namespace Memory.Shows

variable {m n : Memory} {s : Shape} {T : Tagging} {bs : List Block} {chains : Chains} {b : Block}

theorem le_size (h : m.Shows s T) : 144 ≤ m.size := by
  have hLe := h.tiling.le
  omega

theorem size_mod (h : m.Shows s T) : m.size % 8 = 0 := by
  have hMod := h.tiling.width_mod
  have hLe := h.le_size
  omega

theorem bounds (h : m.Shows s T) (hb : b ∈ s.blocks) :
    140 ≤ b.offset ∧ b.offset + b.size + 4 ≤ m.size ∧ 8 ≤ b.size ∧ b.size % 8 = 0 ∧
      b.offset % 8 = 4 := by
  obtain ⟨hLow, hHigh, hSize, hMod, hOffset⟩ := h.tiling.bounds hb
  have hLe := h.le_size
  exact ⟨hLow, by omega, hSize, hMod, by omega⟩

theorem size_tag (h : m.Shows s T) (hb : b ∈ s.blocks) : (m.tag b.offset).size = b.size :=
  (T.header (h.tags b hb) (h.bounds hb).2.2.2.1).1

theorem isAllocated_tag (h : m.Shows s T) (hb : b ∈ s.blocks) :
    (m.tag b.offset).isAllocated = b.allocated :=
  (T.header (h.tags b hb) (h.bounds hb).2.2.2.1).2

theorem header (h : m.Shows s) (b : Block) (hb : b ∈ s.blocks) : m.word b.offset = b.word :=
  (h.tags b hb).1

theorem footer (h : m.Shows s) (b : Block) (hb : b ∈ s.blocks) :
    m.word (b.offset + b.size - 4) = b.word := (h.tags b hb).2

theorem sizeAt (h : m.Shows s T) (hb : b ∈ s.blocks) : m.sizeAt b.offset = .ok b.size := by
  have hBounds := h.bounds hb
  rw [sizeAt_eq_ok (by omega), h.size_tag hb]

theorem threaded (h : m.Shows s T) : m.Threaded s.chains where
  thread := h.thread
  nodup k _ := h.listed.nodup k
  disjoint k _ l _ hNe o hk hl := by
    obtain ⟨a, ha, hOffset, _, _, hBucket⟩ := h.listed.node k o hk
    obtain ⟨b, hb, hOffset', _, _, hBucket'⟩ := h.listed.node l o hl
    rw [h.tiling.eq_of_offset ha hb (hOffset.trans hOffset'.symm), hBucket'] at hBucket
    exact hNe (Option.some.inj hBucket).symm
  inside k _ o ho := by
    obtain ⟨b, hb, rfl, _, hLarge, _⟩ := h.listed.node k o ho
    have hBounds := h.bounds hb
    omega
  apart k _ l _ o ho p hp hNe := by
    obtain ⟨a, ha, rfl, _, hLarge, _⟩ := h.listed.node k o ho
    obtain ⟨b, hb, rfl, _, hLarge', _⟩ := h.listed.node l p hp
    rcases h.tiling.eq_or_apart ha hb with hEq | hApart
    · exact absurd (congrArg Block.offset hEq) hNe
    · omega

/-- Changing links and slots alone changes the chains alone. -/
theorem relink {chains' : Chains} (h : m.Shows ⟨bs, chains⟩ T) (hAgree : m.AgreeOff n (Linkage bs))
    (hThread : ∀ k < 32, n.Thread (4 * k) 0 (chains' k)) (hListed : Shape.Listed ⟨bs, chains'⟩) :
    n.Shows ⟨bs, chains'⟩ T := by
  have hLe := h.le_size
  -- No block has a link where another one, or a sentinel, has a tag.
  have hSame : ∀ i, 128 ≤ i → (∀ b ∈ bs, i + 4 ≤ b.offset + 4 ∨ b.offset + b.size - 4 ≤ i) →
      n.word i = m.word i := by
    intro i hLow hOff
    apply hAgree.word
    rintro j hj hj' (hSlot | ⟨b, hb, _, hLarge, hLink, hLink'⟩)
    · omega
    · have hOffB := hOff b hb
      have hBounds := h.bounds hb
      omega
  refine ⟨?_, ?_, ?_, ?_, ?_, ?_, hThread, hListed⟩
  · rw [hAgree.size]
    exact h.tiling
  · rw [hAgree.size]
    exact h.size_le
  · rw [hSame 132 (by decide), h.prologueHeader]
    intro b hb
    have hBounds := h.bounds hb
    omega
  · rw [hSame 136 (by decide), h.prologueFooter]
    intro b hb
    have hBounds := h.bounds hb
    omega
  · rw [hAgree.size, hSame (m.size - 4) (by omega), h.epilogue]
    intro b hb
    have hBounds := h.bounds hb
    omega
  · intro c hc
    have hBoundsC := h.bounds hc
    rw [hSame c.offset (by omega), hSame (c.offset + c.size - 4) (by omega)]
    · exact h.tags c hc
    · intro b hb
      have hBounds := h.bounds hb
      rcases h.tiling.eq_or_apart hc hb with rfl | hApart
      · omega
      · omega
    · intro b hb
      have hBounds := h.bounds hb
      rcases h.tiling.eq_or_apart hc hb with rfl | hApart
      · omega
      · omega

theorem bucketOf (h : m.Shows s T) (hb : b ∈ s.blocks) : ∃ k < 32, Bucket.ofSize? b.size = some k := by
  have hBounds := h.bounds hb
  have hSize := h.size_le
  exact Bucket.ofSize?_of_le (by omega)

theorem mem_chain (h : m.Shows s T) (hb : b ∈ s.blocks) {k : Nat} (hk : b.offset ∈ s.chains k) :
    b.allocated = false ∧ 16 ≤ b.size ∧ Bucket.ofSize? b.size = some k := by
  obtain ⟨c, hc, hOffset, hFacts⟩ := h.listed.node k b.offset hk
  rwa [h.tiling.eq_of_offset hc hb hOffset] at hFacts

theorem insertFree (h : m.Shows ⟨bs, chains⟩ T) (hb : b ∈ bs) (hFree : b.allocated = false)
    (hLarge : 16 ≤ b.size) (hNew : ∀ k, b.offset ∉ chains k) :
    ∃ n, m.insertFree b.offset = .ok n ∧ m.AgreeOff n (chains.insert b).Links ∧
      n.Shows ⟨bs, chains.insert b⟩ T := by
  obtain ⟨k, hk, hBucket⟩ := h.bucketOf hb
  have hBounds := h.bounds hb
  have hSize := h.size_le
  have hThreaded : m.Threaded chains := h.threaded
  have hFresh : ∀ l < 32, ∀ o ∈ chains l, o + 12 ≤ b.offset ∨ b.offset + 12 ≤ o := by
    intro l _ o ho
    obtain ⟨c, hc, rfl, _, hLarge', _⟩ := h.listed.node l o ho
    rcases h.tiling.eq_or_apart hc hb with rfl | hApart
    · exact absurd ho (hNew l)
    · omega
  obtain ⟨n, hRun, hAgree, hThreads⟩ := hThreaded.push hk hBounds.1 (by omega) (by omega) hFresh
  rw [← Chains.insert_eq_update hBucket] at hThreads
  have hIn : b.offset ∈ chains.insert b k := Chains.mem_insert.mpr (Or.inl ⟨hBucket, rfl⟩)
  have hAgree' : m.AgreeOff n (chains.insert b).Links := by
    apply hAgree.mono
    rintro j (hSlot | hLinks | ⟨hFirst, hLow, hHigh⟩)
    · exact Or.inl (by omega)
    · exact Or.inr ⟨k, b.offset, hIn, hLinks⟩
    · rcases Threaded.headD_cases (chains k) with hZero | hMem
      · exact absurd hZero hFirst
      · exact Or.inr ⟨k, _, Chains.mem_insert.mpr (Or.inr hMem), by omega, hHigh⟩
  have hListed : Shape.Listed ⟨bs, chains.insert b⟩ := by
    constructor
    · intro l o ho
      rcases Chains.mem_insert.mp ho with ⟨hl, rfl⟩ | hOld
      · exact ⟨b, hb, rfl, hFree, hLarge, hl⟩
      · exact h.listed.node l o hOld
    · intro l
      change (chains.insert b l).Nodup
      unfold Chains.insert
      split
      · exact List.nodup_cons.mpr ⟨hNew l, h.listed.nodup l⟩
      · exact h.listed.nodup l
  refine ⟨n, ?_, hAgree', h.relink (hAgree'.mono fun _ => hListed.linkage) hThreads.thread hListed⟩
  rw [Memory.insertFree, h.sizeAt hb, ok_bind, Bucket.ofSize, hBucket]
  exact hRun

/-- Leaving a block out of its chain leaves out what lies in the block. -/
theorem update_eq_clear (h : m.Shows ⟨bs, chains⟩ T) (hb : b ∈ bs) {k : Nat} {l₁ l₂ : List Nat}
    (hSplit : chains k = l₁ ++ b.offset :: l₂) :
    Function.update chains k (l₁ ++ l₂) = chains.clear b.offset (b.offset + b.size) := by
  have hBounds := h.bounds hb
  have hIn : b.offset ∈ chains k := hSplit ▸ List.mem_append_right l₁ List.mem_cons_self
  have hNodup : (l₁ ++ b.offset :: l₂).Nodup := hSplit ▸ h.listed.nodup k
  have hOutside : ∀ l, ∀ o ∈ chains l, o ≠ b.offset → o < b.offset ∨ b.offset + b.size ≤ o := by
    intro l o ho hNe
    obtain ⟨c, hc, rfl, _⟩ := h.listed.node l o ho
    rcases h.tiling.eq_or_apart hc hb with rfl | hApart
    · exact absurd rfl hNe
    · omega
  funext l
  rcases eq_or_ne l k with rfl | hNe
  · have hKept : ∀ o ∈ l₁ ++ l₂, decide (o < b.offset ∨ b.offset + b.size ≤ o) = true := by
      intro o ho
      refine decide_eq_true (hOutside l o ?_ ?_)
      · rw [hSplit]
        exact List.mem_append.mpr ((List.mem_append.mp ho).imp_right (List.mem_cons_of_mem b.offset))
      · rintro rfl
        exact (List.nodup_cons.mp (List.nodup_middle.mp hNodup)).1 ho
    have hGone : ¬ decide (b.offset < b.offset ∨ b.offset + b.size ≤ b.offset) = true := by
      rw [decide_eq_true_eq]
      omega
    rw [Function.update_self, Chains.clear, hSplit, List.filter_append, List.filter_cons,
      if_neg hGone, ← List.filter_append, List.filter_eq_self.mpr hKept]
  · rw [Function.update_of_ne hNe, Chains.clear, List.filter_eq_self.mpr]
    intro o ho
    refine decide_eq_true (hOutside l o ho ?_)
    rintro rfl
    exact hNe (Option.some.inj ((h.mem_chain hb ho).2.2.symm.trans (h.mem_chain hb hIn).2.2))

theorem removeFree (h : m.Shows ⟨bs, chains⟩ T) (hb : b ∈ bs) {k : Nat} (hIn : b.offset ∈ chains k) :
    ∃ n, m.removeFree b.offset = .ok n ∧ m.AgreeOff n chains.Links ∧
      n.Shows ⟨bs, chains.clear b.offset (b.offset + b.size)⟩ T := by
  obtain ⟨hFree, hLarge, hBucket⟩ := h.mem_chain hb hIn
  have hk := (Bucket.ofSize?_eq_some_iff.mp hBucket).1
  have hThreaded : m.Threaded chains := h.threaded
  obtain ⟨l₁, l₂, hSplit⟩ := List.append_of_mem hIn
  obtain ⟨n, hRun, hAgree, _, _, hThreads⟩ := hThreaded.unlink hk hSplit
  have hBounds := h.bounds hb
  have hMem : ∀ o ∈ l₁ ++ l₂, o ∈ chains k := by
    intro o ho
    rw [hSplit]
    exact List.mem_append.mpr ((List.mem_append.mp ho).imp_right (List.mem_cons_of_mem b.offset))
  have hAgree' : m.AgreeOff n chains.Links := by
    apply hAgree.mono
    rintro j (⟨_, hSlot⟩ | ⟨hLast, hLow, hHigh⟩ | hLinks | ⟨hFirst, hLow, hHigh⟩)
    · exact Or.inl (by omega)
    · have hThread : m.Thread (4 * k) 0 (l₁ ++ b.offset :: l₂) := hSplit ▸ hThreaded.thread k hk
      rcases hThread.read.2.2 with ⟨hZero, _⟩ | hMem'
      · exact absurd hZero hLast
      · exact Or.inr ⟨k, _, hMem _ (List.mem_append_left l₂ hMem'), hLow, by omega⟩
    · exact Or.inr ⟨k, b.offset, hIn, hLinks⟩
    · rcases Threaded.headD_cases l₂ with hZero | hMem'
      · exact absurd hZero hFirst
      · exact Or.inr ⟨k, _, hMem _ (List.mem_append_right l₁ hMem'), by omega, hHigh⟩
  rw [h.update_eq_clear hb hSplit] at hThreads
  refine ⟨n, ?_, hAgree', h.relink (hAgree'.mono fun _ => h.listed.linkage) hThreads.thread ⟨?_, ?_⟩⟩
  · rw [Memory.removeFree, h.sizeAt hb, ok_bind, Bucket.ofSize, hBucket]
    exact hRun
  · intro l o ho
    exact h.listed.node l o (Chains.mem_clear.mp ho).1
  · exact fun l => (h.listed.nodup l).filter _

/-- What a bucket leads to is on either side of a part that no bucket leads into. -/
theorem node_beside {left mid right : List Block} {a z k o : Nat}
    (h : m.Shows ⟨left ++ mid ++ right, chains⟩ T) (hMid : Tiling a mid z)
    (hClear : ∀ k, ∀ o ∈ chains k, o < a ∨ z ≤ o) (ho : o ∈ chains k) :
    ∃ c, (c ∈ left ∨ c ∈ right) ∧ c.offset = o ∧ c.allocated = false ∧ 16 ≤ c.size ∧
      Bucket.ofSize? c.size = some k := by
  obtain ⟨c, hc, rfl, hFacts⟩ := h.listed.node k o ho
  refine ⟨c, ?_, rfl, hFacts⟩
  rcases List.mem_append.mp hc with hc | hc
  · refine (List.mem_append.mp hc).imp_right fun hc => ?_
    have hBounds := hMid.bounds hc
    have hOff := hClear k c.offset ho
    omega
  · exact Or.inr hc

/-- Writing anew such a part, as long as the new tags fit. -/
theorem replace {left mid mid' right : List Block} {a z : Nat}
    (h : m.Shows ⟨left ++ mid ++ right, chains⟩ T) (hLeft : Tiling 140 left a)
    (hMid : Tiling a mid z) (hRight : Tiling z right (m.size - 4)) (hNew : Tiling a mid' z)
    (hAgree : m.AgreeOff n fun j => a ≤ j ∧ j < z)
    (hTags : ∀ c ∈ mid', T.fits c (n.word c.offset) (n.word (c.offset + c.size - 4)))
    (hClear : ∀ k, ∀ o ∈ chains k, o < a ∨ z ≤ o) : n.Shows ⟨left ++ mid' ++ right, chains⟩ T := by
  have hLe := h.le_size
  have hLow := hLeft.le
  have hHigh := hRight.le
  have hSame : ∀ i, i + 4 ≤ a ∨ z ≤ i → n.word i = m.word i := by
    intro i hOff
    apply hAgree.word
    omega
  have hOld : ∀ c, c ∈ left ∨ c ∈ right → c ∈ left ++ mid ++ right ∧
      (c.offset + c.size ≤ a ∨ z ≤ c.offset) ∧ 8 ≤ c.size := by
    rintro c (hc | hc)
    · have hBounds := hLeft.bounds hc
      exact ⟨List.mem_append_left right (List.mem_append_left mid hc), by omega, by omega⟩
    · have hBounds := hRight.bounds hc
      exact ⟨List.mem_append_right (left ++ mid) hc, by omega, by omega⟩
  refine ⟨?_, ?_, ?_, ?_, ?_, ?_, ?_, ?_, h.listed.nodup⟩
  · rw [hAgree.size]
    exact (hLeft.append hNew).append hRight
  · rw [hAgree.size]
    exact h.size_le
  · rw [hSame 132 (by omega), h.prologueHeader]
  · rw [hSame 136 (by omega), h.prologueFooter]
  · rw [hAgree.size, hSame (m.size - 4) (by omega), h.epilogue]
  · have hKept : ∀ c, c ∈ left ∨ c ∈ right →
        T.fits c (n.word c.offset) (n.word (c.offset + c.size - 4)) := by
      intro c hc
      obtain ⟨hIn, hOff, hSize⟩ := hOld c hc
      rw [hSame c.offset (by omega), hSame (c.offset + c.size - 4) (by omega)]
      exact h.tags c hIn
    intro c hc
    rcases List.mem_append.mp hc with hc | hc
    · rcases List.mem_append.mp hc with hc | hc
      · exact hKept c (Or.inl hc)
      · exact hTags c hc
    · exact hKept c (Or.inr hc)
  · intro k hk
    apply (h.thread k hk).congr (hSame (4 * k) (by omega))
    · intro o ho
      obtain ⟨c, hc, rfl, _, hLarge, _⟩ := h.node_beside hMid hClear ho
      obtain ⟨_, hOff, _⟩ := hOld c hc
      exact hSame _ (by omega)
    · intro o ho
      obtain ⟨c, hc, rfl, _, hLarge, _⟩ := h.node_beside hMid hClear ho
      obtain ⟨_, hOff, _⟩ := hOld c hc
      exact hSame _ (by omega)
  · intro k o ho
    obtain ⟨c, hc, hFacts⟩ := h.node_beside hMid hClear ho
    refine ⟨c, ?_, hFacts⟩
    rcases hc with hc | hc
    · exact List.mem_append_left right (List.mem_append_left mid' hc)
    · exact List.mem_append_right (left ++ mid') hc

/-- Making one block of such a part. -/
theorem fuse {left mid right : List Block} (h : m.Shows ⟨left ++ mid ++ right, chains⟩ T)
    (hLeft : Tiling 140 left b.offset) (hMid : Tiling b.offset mid (b.offset + b.size))
    (hRight : Tiling (b.offset + b.size) right (m.size - 4)) (hSize : 8 ≤ b.size)
    (hClear : ∀ k, ∀ o ∈ chains k, o < b.offset ∨ b.offset + b.size ≤ o) :
    ∃ n, m.writeTags b.offset ⟨b.word⟩ = .ok n ∧ m.AgreeOff n (InTags b) ∧
      n.Shows ⟨left ++ b :: right, chains⟩ T := by
  have hMod := hMid.width_mod
  have hLe := h.le_size
  have hHigh := hRight.le
  obtain ⟨n, hRun, hAgree, hHeader, hFooter⟩ :=
    writeTags_words (m := m) (b := b) hSize (by omega) (by omega) h.size_le
  refine ⟨n, hRun, hAgree, ?_⟩
  rw [List.append_cons]
  apply h.replace hLeft hMid hRight
  · exact Tiling.single hSize (by omega)
  · apply hAgree.mono
    simp only [InTags]
    omega
  · intro c hc
    rw [List.mem_singleton.mp hc, hHeader, hFooter]
    exact T.written (by omega)
  · exact hClear

/-- Making two blocks of one that no bucket leads into. -/
theorem split {left right : List Block} {c d : Block} (h : m.Shows ⟨left ++ b :: right, chains⟩ T)
    (hFirst : c.offset = b.offset) (hSecond : d.offset = b.offset + c.size)
    (hSum : c.size + d.size = b.size) (hSizeC : 8 ≤ c.size) (hModC : c.size % 8 = 0)
    (hSizeD : 8 ≤ d.size) (hClear : ∀ k, ∀ o ∈ chains k, o < b.offset ∨ b.offset + b.size ≤ o) :
    ∃ n₁ n, m.writeTags c.offset ⟨c.word⟩ = .ok n₁ ∧ n₁.successor c.offset = .ok d.offset ∧
      n₁.writeTags d.offset ⟨d.word⟩ = .ok n ∧
      m.AgreeOff n (fun j => b.offset ≤ j ∧ j < b.offset + b.size) ∧
      n.Shows ⟨left ++ c :: d :: right, chains⟩ T := by
  have hBounds := h.bounds (b := b) (List.mem_append_right left List.mem_cons_self)
  have hSmall := h.size_le
  obtain ⟨hLeft, hSize, hMod, hRight⟩ := h.tiling.cut
  obtain ⟨n₁, hFront, hAgree₁, hHeader₁, hFooter₁⟩ :=
    writeTags_words (m := m) (b := c) hSizeC hModC (by omega) hSmall
  have hSize₁ := hAgree₁.size
  obtain ⟨n, hBack, hAgree₂, hHeader₂, hFooter₂⟩ :=
    writeTags_words (m := n₁) (b := d) hSizeD (by omega) (by omega) (by omega)
  have hSuccessor : n₁.successor c.offset = .ok d.offset := by
    rw [successor_eq_ok (by omega), tag, hHeader₁, Block.tag_word_size hModC, hFirst, hSecond]
  have hAgree : m.AgreeOff n (fun j => b.offset ≤ j ∧ j < b.offset + b.size) := by
    apply (hAgree₁.mono _).trans (hAgree₂.mono _)
    · intro j hj
      simp only [InTags] at hj
      omega
    · intro j hj
      simp only [InTags] at hj
      omega
  have hOld : m.Shows ⟨left ++ [b] ++ right, chains⟩ T := by rwa [← List.append_cons]
  have hNew : n.Shows ⟨left ++ [c, d] ++ right, chains⟩ T := by
    apply hOld.replace hLeft (Tiling.single hSize hMod) hRight
    · refine ⟨hFirst, hSizeC, hModC, by omega, hSizeD, by omega, ?_⟩
      simp only [Tiling]
      omega
    · exact hAgree
    -- The tags of the second block do not meet those of the first.
    · intro e he
      rcases List.mem_cons.mp he with rfl | he
      · rw [hAgree₂.word (by simp only [InTags]; omega), hHeader₁,
          hAgree₂.word (by simp only [InTags]; omega), hFooter₁]
        exact T.written hModC
      · rw [List.mem_singleton.mp he, hHeader₂, hFooter₂]
        exact T.written (by omega)
    · exact hClear
  rw [List.append_assoc] at hNew
  exact ⟨n₁, n, hFront, hSuccessor, hBack, hAgree, hNew⟩

end Memory.Shows

end TaggedHeap
