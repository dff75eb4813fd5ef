import TaggedHeap.Proofs.Guarantees
import TaggedHeap.Proofs.Views

/-! # What verification vouches for

Verification does not look at the footers of allocated blocks, but merging does: it takes the word
before a block for the footer of the one before, to see if that is free. Where these footers say
that their blocks are allocated, whatever else they hold, a heap that verification accepts can be
operated on, and is accepted again.
-/

namespace TaggedHeap

namespace Tagging

/-- The tags as far as verification looks at them. -/
def audited : Tagging where
  fits b header footer := (Tag.mk header).size = b.size ∧
    (Tag.mk header).isAllocated = b.allocated ∧ (b.allocated = false → footer = header)
  written h := ⟨Block.tag_word_size h, Block.tag_word_isAllocated h, fun _ => rfl⟩
  header h _ := ⟨h.1, h.2.1⟩
  footer h := h.2.2

/-- The tags as far as verification or merging looks at them. -/
def signed : Tagging where
  fits b header footer := audited.fits b header footer ∧
    (b.allocated = true → (Tag.mk footer).isAllocated = true)
  written h := ⟨audited.written h, fun hAllocated => (Block.tag_word_isAllocated h).trans hAllocated⟩
  header h := audited.header h.1
  footer h := audited.footer h.1

end Tagging

/-- The chains of the buckets that a directory has. -/
def Chains.within (chains : Chains) : Chains := fun k => if k < 32 then chains k else []

theorem Chains.within_of_lt {chains : Chains} {k : Nat} (hk : k < 32) :
    chains.within k = chains k := if_pos hk

theorem Chains.mem_within {chains : Chains} {k o : Nat} :
    o ∈ chains.within k ↔ k < 32 ∧ o ∈ chains k := by
  unfold within
  split
  · rename_i hk
    rw [and_iff_right hk]
  · rename_i hk
    rw [iff_false_intro List.not_mem_nil, false_iff]
    exact fun h => hk h.1

namespace Memory

variable {m : Memory} {s : Shape}

namespace Orderly

theorem mem_listed (h : m.Orderly s) {k o : Nat} (hk : k < 32) (ho : o ∈ s.chains k) :
    ∃ b ∈ s.blocks, b.allocated = false ∧ b.offset = o :=
  mem_freeOffsets.mp (h.listing.mem_iff.mp (List.mem_flatMap.mpr ⟨k, List.mem_range.mpr hk, ho⟩))

theorem exists_chain (h : m.Orderly s) {b : Block} (hb : b ∈ s.blocks)
    (hFree : b.allocated = false) : ∃ k < 32, b.offset ∈ s.chains k := by
  have hListed := h.listing.mem_iff.mpr (mem_freeOffsets.mpr ⟨b, hb, hFree, rfl⟩)
  obtain ⟨k, hk, ho⟩ := List.mem_flatMap.mp hListed
  exact ⟨k, List.mem_range.mp hk, ho⟩

theorem nodup_chain (h : m.Orderly s) {k : Nat} (hk : k < 32) : (s.chains k).Nodup :=
  (List.nodup_flatMap.mp h.shared.nodup).1 k (List.mem_range.mpr hk)

theorem mem_chain_iff (h : m.Orderly s) {k o : Nat} (hk : k < 32) :
    o ∈ s.chains k ↔ ∃ b ∈ s.blocks, b.allocated = false ∧ b.offset = o ∧
      Bucket.ofSize? b.size = some k := by
  constructor
  · intro ho
    obtain ⟨b, hb, hFree, rfl⟩ := h.mem_listed hk ho
    exact ⟨b, hb, hFree, rfl, Bucket.ofSize?_eq_some_iff.mpr ⟨hk, h.bucket k hk b hb ho⟩⟩
  · rintro ⟨b, hb, hFree, rfl, hBucket⟩
    obtain ⟨l, hl, ho⟩ := h.exists_chain hb hFree
    have hBucket' := Bucket.ofSize?_eq_some_iff.mpr ⟨hl, h.bucket l hl b hb ho⟩
    obtain rfl : l = k := Option.some.inj (hBucket'.symm.trans hBucket)
    exact ho

theorem fits_audited (h : m.Orderly s) {b : Block} (hb : b ∈ s.blocks) :
    Tagging.audited.fits b (m.word b.offset) (m.word (b.offset + b.size - 4)) := by
  have hFits := h.walked.fits b hb
  exact ⟨hFits.size.symm, hFits.allocated.symm, hFits.footer⟩

/-- What verification accepts is at rest, as far as its tags are looked at. -/
theorem atRest (h : m.Orderly s) (hSmall : m.size ≤ 2 ^ 31) :
    m.AtRest ⟨s.blocks, s.chains.within⟩ .audited where
  shows := by
    refine ⟨h.tiling, hSmall, h.prologueHeader, h.prologueFooter, h.epilogue,
      fun b hb => h.fits_audited hb, ?_, ?_, ?_⟩
    · intro k hk
      change m.Thread (4 * k) 0 (s.chains.within k)
      rw [Chains.within_of_lt hk]
      exact h.thread k hk
    · intro k o ho
      obtain ⟨hk, ho⟩ := Chains.mem_within.mp ho
      obtain ⟨b, hb, hFree, rfl, hBucket⟩ := (h.mem_chain_iff hk).mp ho
      have hLarge := h.large b hb
      exact ⟨b, hb, rfl, hFree, by omega, hBucket⟩
    · intro k
      change (s.chains.within k).Nodup
      unfold Chains.within
      split
      · rename_i hk
        exact h.nodup_chain hk
      · exact List.nodup_nil
  settled := by
    refine ⟨h.large, h.fenced, ?_⟩
    intro b hb hFree
    obtain ⟨k, hk, ho⟩ := h.exists_chain hb hFree
    exact ⟨k, Chains.mem_within.mpr ⟨hk, ho⟩⟩

end Orderly

theorem AtRest.signed_tags (h : m.AtRest s .signed) {b : Block} (hb : b ∈ s.blocks) : m.Signed b :=
  (h.shows.tags b hb).2

theorem AtRest.sign (h : m.AtRest s .audited) (hSigned : ∀ b ∈ s.blocks, m.Signed b) :
    m.AtRest s .signed :=
  ⟨{ h.shows with tags := fun b hb => ⟨h.shows.tags b hb, hSigned b hb⟩ }, h.settled⟩

end Memory

namespace Heap

variable {S α : Type}

/-- The other heap can be operated on as this one: it has the same settings, verification accepts
it, and its footers say which blocks are allocated if they did. -/
structure Upholds (h h' : Heap S) : Prop where
  config : h'.config = h.config
  small : h'.currentSize ≤ 2 ^ 31
  verify : h'.verify = .ok (.ok ())
  signed : (∀ b ∈ h.blocks, h.memory.Signed b) → ∀ b ∈ h'.blocks, h'.memory.Signed b

/-- The operation runs into no fault, gives one of the answers, and keeps the memory at rest,
whatever is required of the tags. -/
def Keeps (h : Heap S) (run : Checked (Outcome S α)) (answers : Except HeapError α → Prop) : Prop :=
  ∀ T s, h.memory.AtRest s T → ∃ answer h', run = .ok (answer, h') ∧ answers answer ∧
    h'.config = h.config ∧ ∃ t, h'.memory.AtRest t T

variable {h : Heap S}

theorem Keeps.upholds {run : Checked (Outcome S α)} {answers : Except HeapError α → Prop}
    (hKeeps : h.Keeps run answers) (hSmall : h.currentSize ≤ 2 ^ 31)
    (hVerify : h.verify = .ok (.ok ())) :
    ∃ answer h', run = .ok (answer, h') ∧ answers answer ∧ h.Upholds h' := by
  obtain ⟨s, hOrderly⟩ := Memory.verify_eq_ok_iff.mp hVerify
  have hRest := hOrderly.atRest hSmall
  obtain ⟨answer, h', hRun, hAnswer, hConfig, t, hRest'⟩ := hKeeps .audited _ hRest
  refine ⟨answer, h', hRun, hAnswer, hConfig, hRest'.shows.size_le,
    Memory.verify_eq_ok_iff.mpr ⟨t, hRest'.orderly⟩, ?_⟩
  intro hSigned
  have hBlocks : h.blocks = s.blocks := hRest.shows.blocks
  rw [hBlocks] at hSigned
  -- The same run, with the footers of allocated blocks in view.
  obtain ⟨_, _, hRun', _, _, u, hRest''⟩ := hKeeps .signed _ (hRest.sign hSigned)
  rw [hRun] at hRun'
  cases hRun'
  intro b hb
  have hBlocks' : h'.blocks = u.blocks := hRest''.shows.blocks
  exact hRest''.signed_tags (hBlocks' ▸ hb)

theorem release_keeps {b : Block} (hb : b ∈ h.blocks) (hAllocated : b.allocated = true)
    (hSigned : ∀ a ∈ h.blocks, a.offset + a.size = b.offset → h.memory.Signed a) :
    h.Keeps (h.release (b.offset + 4)) (· = .ok ()) := by
  intro T s hRest
  have hBlocks : h.blocks = s.blocks := hRest.shows.blocks
  rw [hBlocks] at hb hSigned
  obtain ⟨n, t, _, _, hLoses, hRun⟩ := release_of_signed hRest hb hAllocated hSigned
  exact ⟨_, _, hRun, rfl, rfl, t, hLoses.atRest⟩

theorem tryAllocate_keeps [Supply S] (hValid : h.config.validate = .ok ())
    (hWord : h.config.chunkSize < 2 ^ 64) (size : Nat)
    (hSigned : h.Grows size →
      ∀ a ∈ h.blocks, a.offset + a.size + 4 = h.currentSize → h.memory.Signed a) :
    h.Keeps (h.tryAllocate size) fun _ => True := by
  intro T s hRest
  have hBlocks : h.blocks = s.blocks := hRest.shows.blocks
  rw [hBlocks] at hSigned
  rcases tryAllocate_of_signed hRest size hSigned hValid hWord with
    ⟨error, h', hRun, hMemory, hConfig⟩ | ⟨p, h', hRun, hConfig, b, t, _, _, hGains⟩
  · exact ⟨_, h', hRun, trivial, hConfig, s, hMemory ▸ hRest⟩
  · exact ⟨_, h', hRun, trivial, hConfig, t, hGains.atRest⟩

/-- The bytes of a word, the least significant one first. -/
def bytesOf (word : Nat) : List UInt8 :=
  [word.toUInt8, (word / 2 ^ 8).toUInt8, (word / 2 ^ 16).toUInt8, (word / 2 ^ 24).toUInt8]

theorem length_bytesOf (words : List Nat) : (words.flatMap bytesOf).length = 4 * words.length := by
  induction words with
  | nil => rfl
  | cons word words ih =>
    rw [List.flatMap_cons, List.length_append, ih, List.length_cons]
    exact Nat.add_comm 4 _

/-- A heap over an empty directory, the prologue, blocks with these words in them, and the
epilogue. -/
def laid (words : List Nat) (h : words.length < 2 ^ 60) : Heap Cap where
  arena :=
    { memory :=
        { bytes := ⟨((List.replicate 33 0 ++ 9 :: 9 :: (words ++ [1])).flatMap bytesOf).toArray⟩
          size_lt := by
            change (List.toArray _).size < _
            rw [List.size_toArray, length_bytesOf]
            simp only [List.length_append, List.length_replicate, List.length_cons, List.length_nil]
            omega }
      supply := ⟨1000⟩ }
  config := { chunkSize := 80 }

/-- Two allocated blocks with tags that no heap writes. -/
def strayed : Heap Cap :=
  laid [45, 0, 0, 0, 0, 0, 0, 0, 0, 7, 41, 0, 0, 0, 0, 0, 0, 0, 0, 1] (by decide)

/-- A free block before an allocated one that ends like a free one. -/
def stowed : Heap Cap :=
  let bare := laid [40, 0, 0, 0, 0, 0, 0, 0, 0, 40, 41, 0, 32, 0, 180, 0, 0, 0, 0, 32] (by decide)
  bare.withMemory (bare.memory.setWord 24 140)

/-- Whatever the bytes are that verification accepts, releasing a block and allocating run into no
fault and leave what verification accepts, if the one footer of an allocated block that they may
read says so: that of the block before the released one, or of the last block if the arena grows. -/
theorem verify_upheld [Supply S] (hValid : h.config.validate = .ok ())
    (hWord : h.config.chunkSize < 2 ^ 64) (hSmall : h.currentSize ≤ 2 ^ 31)
    (hVerify : h.verify = .ok (.ok ())) :
    (∀ b ∈ h.blocks, b.allocated = true →
      (∀ a ∈ h.blocks, a.offset + a.size = b.offset → h.memory.Signed a) →
      ∃ h', h.release (b.offset + 4) = .ok (.ok (), h') ∧ h.Upholds h') ∧
    ∀ size, (h.Grows size →
        ∀ a ∈ h.blocks, a.offset + a.size + 4 = h.currentSize → h.memory.Signed a) →
      ∃ answer h', h.tryAllocate size = .ok (answer, h') ∧ h.Upholds h' := by
  constructor
  · intro b hb hAllocated hSigned
    obtain ⟨_, h', hRun, rfl, hUpholds⟩ :=
      (release_keeps hb hAllocated hSigned).upholds hSmall hVerify
    exact ⟨h', hRun, hUpholds⟩
  · intro size hSigned
    obtain ⟨answer, h', hRun, _, hUpholds⟩ :=
      (tryAllocate_keeps hValid hWord size hSigned).upholds hSmall hVerify
    exact ⟨answer, h', hRun, hUpholds⟩

theorem verify_upheld_stray : strayed.verify = .ok (.ok ()) ∧
    (∃ h, strayed.release 184 = .ok (.ok (), h) ∧ strayed.Upholds h) ∧
    (∃ answer h, strayed.tryAllocate 8 = .ok (answer, h) ∧ strayed.Upholds h) ∧
    stowed.verify = .ok (.ok ()) ∧
    ∃ answer h, stowed.tryAllocate 8 = .ok (answer, h) ∧ stowed.Upholds h := by
  have hVerify : strayed.verify = .ok (.ok ()) := by decide +kernel
  have hBlock : ⟨180, 40, true⟩ ∈ strayed.blocks := by decide +kernel
  have hVerify' : stowed.verify = .ok (.ok ()) := by decide +kernel
  have hFit : stowed.memory.findFit 40 = .ok (some 140) := by decide +kernel
  obtain ⟨hRelease, hAllocate⟩ := verify_upheld rfl (by decide) (by decide +kernel) hVerify
  obtain ⟨_, hAllocate'⟩ :=
    verify_upheld (h := stowed) rfl (by decide) (by decide +kernel) hVerify'
  refine ⟨hVerify, hRelease ⟨180, 40, true⟩ hBlock rfl (by decide +kernel),
    hAllocate 8 fun _ => by decide +kernel, hVerify', hAllocate' 8 ?_⟩
  -- Nothing grows, so nothing is asked of the last footer.
  rintro ⟨_, blockSize, hSize, hFind, _⟩
  obtain rfl : 40 = blockSize := Except.ok.inj hSize
  cases hFit.symm.trans hFind

/-- Two allocated blocks that end like free ones of 32 bytes. -/
def forged : Heap Cap :=
  laid [41, 0, 32, 0, 140, 0, 0, 0, 0, 32, 41, 0, 32, 0, 180, 0, 0, 0, 0, 32] (by decide)

/-- What the footers of allocated blocks say is not verified, but the next release or growth merges
with it. -/
theorem verify_forged : forged.config.validate = .ok () ∧ forged.config.chunkSize < 2 ^ 64 ∧
    forged.currentSize ≤ 2 ^ 31 ∧ forged.verify = .ok (.ok ()) ∧
    ⟨180, 40, true⟩ ∈ forged.blocks ∧
    (∃ answer h, forged.release 184 = .ok (answer, h) ∧ h.verify ≠ .ok (.ok ())) ∧
    ∃ answer h, forged.tryAllocate 8 = .ok (answer, h) ∧ h.verify ≠ .ok (.ok ()) := by
  have hRelease : (forged.release 184).toOption.any
      (fun r => r.2.verify ≠ .ok (.ok ())) = true := by decide +kernel
  have hAllocate : (forged.tryAllocate 8).toOption.any
      (fun r => r.2.verify ≠ .ok (.ok ())) = true := by decide +kernel
  obtain ⟨⟨answer, h⟩, hRun, hBroken⟩ := exists_of_any hRelease
  obtain ⟨⟨answer', h'⟩, hRun', hBroken'⟩ := exists_of_any hAllocate
  exact ⟨rfl, by decide, by decide +kernel, by decide +kernel, by decide +kernel,
    ⟨answer, h, hRun, of_decide_eq_true hBroken⟩, answer', h', hRun', of_decide_eq_true hBroken'⟩

/-- What has to be known of a heap for any number of operations to go well. -/
structure Vouched (h : Heap S) : Prop where
  valid : h.config.validate = .ok ()
  word : h.config.chunkSize < 2 ^ 64
  small : h.currentSize ≤ 2 ^ 31
  verify : h.verify = .ok (.ok ())
  signed : ∀ b ∈ h.blocks, h.memory.Signed b

/-- The heap after any number of releases of its blocks and of allocations. -/
inductive Maintains [Supply S] (h : Heap S) : Heap S → Prop where
  | start : Maintains h h
  | release {g g' : Heap S} {b : Block} {answer : Except HeapError Unit} (hRun : Maintains h g)
      (hb : b ∈ g.blocks) (hAllocated : b.allocated = true)
      (hStep : g.release (b.offset + 4) = .ok (answer, g')) : Maintains h g'
  | tryAllocate {g g' : Heap S} {size : Nat} {answer : Except HeapError Nat}
      (hRun : Maintains h g) (hStep : g.tryAllocate size = .ok (answer, g')) : Maintains h g'

namespace Vouched

theorem keep {run : Checked (Outcome S α)} {answers : Except HeapError α → Prop} (h₁ : h.Vouched)
    (hKeeps : h.Keeps run answers) : ∃ answer h', run = .ok (answer, h') ∧ h'.Vouched := by
  obtain ⟨answer, h', hRun, _, hUpholds⟩ := hKeeps.upholds h₁.small h₁.verify
  have hConfig := hUpholds.config
  exact ⟨answer, h', hRun, hConfig ▸ h₁.valid, hConfig ▸ h₁.word, hUpholds.small, hUpholds.verify,
    hUpholds.signed h₁.signed⟩

variable {b : Block}

theorem release (h₁ : h.Vouched) (hb : b ∈ h.blocks) (hAllocated : b.allocated = true) :
    ∃ answer h', h.release (b.offset + 4) = .ok (answer, h') ∧ h'.Vouched :=
  h₁.keep (release_keeps hb hAllocated fun a ha _ => h₁.signed a ha)

variable [Supply S]

theorem tryAllocate (h₁ : h.Vouched) (size : Nat) :
    ∃ answer h', h.tryAllocate size = .ok (answer, h') ∧ h'.Vouched :=
  h₁.keep (tryAllocate_keeps h₁.valid h₁.word size fun _ a ha _ => h₁.signed a ha)

/-- Where all footers of allocated blocks say so, verification vouches for whole runs. -/
theorem maintains {g : Heap S} (h₁ : h.Vouched) (hRun : h.Maintains g) : g.Vouched := by
  induction hRun with
  | start => exact h₁
  | release _ hb hAllocated hStep ih =>
    obtain ⟨_, _, hStep', hVouched⟩ := ih.release hb hAllocated
    rw [hStep] at hStep'
    cases hStep'
    exact hVouched
  | @tryAllocate _ _ size _ _ hStep ih =>
    obtain ⟨_, _, hStep', hVouched⟩ := ih.tryAllocate size
    rw [hStep] at hStep'
    cases hStep'
    exact hVouched

end Vouched

end Heap

end TaggedHeap
