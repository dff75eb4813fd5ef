import TaggedHeap.Proofs.Operations
import TaggedHeap.Proofs.Sound

/-! # Building a heap on an arena

A heap can be built on any arena of a size that initialisation accepts, and is then in order, except
where the space is too small for a block. Eight bytes of reclaimed space take no links: they are
written over the epilogue, and a growth then finds a block before it that is not there. A heap on so
little space that it does not make one block can be built, but not verified.
-/

namespace TaggedHeap

namespace Arena

variable {S : Type} [Supply S] {a : Arena S} {increment : Nat}

theorem grow_of_granted (h : (Supply.request a.supply a.size increment).1 = .ok ())
    (hFits : a.size + increment < 2 ^ 63) : ∃ b, a.grow increment = (.ok a.size, b) := by
  obtain ⟨memory, supply, lowBound⟩ := a
  change (Supply.request supply memory.size increment).1 = .ok () at h
  obtain ⟨grown, hExtend⟩ := Memory.extend?_of_lt hFits
  rcases hRequest : Supply.request supply memory.size increment with ⟨answer, next⟩
  rw [hRequest] at h
  cases h
  refine ⟨⟨grown, next, lowBound⟩, ?_⟩
  change memory.extend? increment = some grown at hExtend
  simp only [grow, hRequest, hExtend]
  rfl

theorem grow_of_refused {error : HeapError}
    (h : (Supply.request a.supply a.size increment).1 = .error error) :
    ∃ b, a.grow increment = (.error error, b) := by
  obtain ⟨memory, supply, lowBound⟩ := a
  change (Supply.request supply memory.size increment).1 = .error error at h
  rcases hRequest : Supply.request supply memory.size increment with ⟨answer, next⟩
  rw [hRequest] at h
  cases h
  refine ⟨⟨memory, next, lowBound⟩, ?_⟩
  simp only [grow, hRequest]

end Arena

namespace Memory

variable {m n : Memory}

theorem writeTags_of_short {block : Nat} {tag : Tag} (hSmall : tag.word < 2 ^ 32)
    (hLarge : 4 ≤ tag.size) (hHeader : block + 4 ≤ m.size) (hShort : m.size < block + tag.size) :
    m.writeTags block tag = .error .outOfBounds := by
  have hRead : (m.setWord block tag.word).tag block = tag := by
    rw [Memory.tag, word_setWord_self hHeader hSmall]
  rw [writeTags, write_eq_ok hHeader hSmall, ok_bind,
    footerAt_eq_ok (by rwa [size_setWord]) (by rw [hRead]; omega), ok_bind, hRead, write,
    if_neg (by rw [size_setWord]; omega)]

/-- Eight bytes of free space at the start of a memory without other blocks. -/
structure Sliver (m : Memory) : Prop where
  size : 152 ≤ m.size
  small : m.size ≤ 2 ^ 31
  header : m.word 140 = 8
  slots : ∀ k < 32, m.word (4 * k) = 0

/-- The links of a sliver reach four bytes beyond it. -/
theorem Sliver.insertFree (h : m.Sliver) :
    ∃ n, m.insertFree 140 = .ok n ∧ n.size = m.size ∧ n.word 140 = 8 ∧ n.word 144 = 0 ∧
      n.word 148 = 0 ∧ ∀ k < 32, n.word (4 * k) = 0 ∨ n.word (4 * k) = 140 := by
  have hSize := h.size
  obtain ⟨n, hRun, hAgree, hSlot, hNext, hPrev, _⟩ := push_words (m := m) (k := 3) (b := 140)
    (by decide) le_rfl (by omega) (le_trans h.small (by decide)) (h.slots 3 (by decide)) (Or.inl rfl)
  refine ⟨n, ?_, hAgree.size, ?_, hNext, hPrev, ?_⟩
  · rw [Memory.insertFree, sizeAt_eq_ok (by omega), ok_bind, tag, h.header]
    exact hRun
  · rw [hAgree.word, h.header]
    simp only [TouchedByPush]
    omega
  · intro k hk
    rcases eq_or_ne k 3 with rfl | hNe
    · exact Or.inr hSlot
    · refine Or.inl ((hAgree.word ?_).trans (h.slots k hk))
      simp only [TouchedByPush]
      omega

theorem Sliver.coalesce (h : m.Sliver) (hBefore : m.word 136 = 9) (hAfter : m.word 148 = 1) :
    ∃ n, m.coalesce 140 = .ok (140, n) ∧ n.size = m.size ∧ n.word 140 = 8 := by
  have hSize := h.size
  have hSmall := h.small
  have hTag : (m.tag 140).size = 8 := by
    rw [tag, h.header]
    rfl
  have hTagBefore : (m.tag (140 - 4)).isAllocated = true := by
    rw [tag, hBefore]
    rfl
  have hTagAfter : (m.tag (140 + 8)).isAllocated = true := by
    rw [tag, hAfter]
    rfl
  obtain ⟨n, hWrite, hAgree, hHeader, _⟩ := writeTags_words (m := m) (b := ⟨140, 8, false⟩)
    le_rfl rfl (by dsimp only; omega) (by omega)
  have hSliver : n.Sliver := by
    refine ⟨by rw [hAgree.size]; exact h.size, by rw [hAgree.size]; exact h.small, hHeader, ?_⟩
    intro k hk
    rw [hAgree.word, h.slots k hk]
    simp only [InTags]
    omega
  obtain ⟨p, hInsert, hSizeP, hHeaderP, _⟩ := hSliver.insertFree
  refine ⟨p, ?_, by rw [hSizeP, hAgree.size], hHeaderP⟩
  rw [Memory.coalesce, tagBefore_eq_ok (by decide) (by omega), ok_bind, successor_eq_ok (by omega),
    ok_bind, hTag, tagAt_eq_ok (by omega), ok_bind, sizeAt_eq_ok (by omega), ok_bind, hTagBefore,
    hTagAfter]
  dsimp only
  rw [pure_bind, hTag]
  dsimp only
  rw [Block.free_tag (b := ⟨140, 8, false⟩) rfl rfl (by decide), ok_bind, hWrite, ok_bind, hInsert]
  rfl

/-- Formatting eight bytes of space clears the epilogue. -/
theorem format_sliver (hSize : m.size = 152) :
    ∃ n, m.format = .ok (8, n) ∧ n.size = 152 ∧ n.word 144 = 0 ∧
      ∀ k < 32, n.word (4 * k) ≠ 148 := by
  obtain ⟨n, hSizeN, hBared, hFormat⟩ := format_eq (m := m) (by omega) (by omega)
  obtain ⟨p, hWrite, hAgree, hHeader, _⟩ := writeTags_words (m := n) (b := ⟨140, 8, false⟩)
    le_rfl rfl (by dsimp only; omega) (by omega)
  have hSizeP := hAgree.size
  have hSliver : p.Sliver := by
    refine ⟨by omega, by omega, hHeader, ?_⟩
    intro k hk
    rw [hAgree.word, hBared.slots k hk]
    simp only [InTags]
    omega
  obtain ⟨q, hInsert, hSizeQ, _, hNext, _, hSlots⟩ := hSliver.insertFree
  refine ⟨q, ?_, by omega, hNext, ?_⟩
  · rw [hFormat, hSize, if_pos (by decide),
      Block.free_tag (b := ⟨140, 8, false⟩) rfl rfl (by decide), ok_bind,
      hWrite, ok_bind, hInsert]
    rfl
  · intro k hk
    have hSlot := hSlots k hk
    omega

/-- Where a growth is annexed after a sliver, the word before it is a cleared link. -/
structure Severed (m : Memory) (count : Nat) : Prop where
  size : m.size = 152 + count
  small : m.size ≤ 2 ^ 31
  before : m.word 144 = 0
  header : m.word 148 = count
  epilogue : m.word (148 + count) = 1
  links : count = 8 ∧ m.word 152 = 8 ∧ m.word 156 = 1 ∨
    16 ≤ count ∧ m.word 152 = 0 ∧ m.word 156 = 0
  slots : ∀ k < 32, m.word (4 * k) ≠ 148

theorem Annexed.severed {count : Nat} (h : m.Annexed n count) (hSize : m.size = 152)
    (hNext : m.word 144 = 0) (hSlots : ∀ k < 32, m.word (4 * k) ≠ 148) (hMin : 8 ≤ count)
    (hMod : count % 8 = 0) (hSmall : 152 + count ≤ 2 ^ 31) : n.Severed count := by
  have hSizeN := h.size
  have hHeader := h.header
  have hFooter := h.footer
  have hEpilogue := h.epilogue
  rw [hSize] at hSizeN hHeader hFooter hEpilogue
  have hFresh : ∀ i, 152 ≤ i → i + 12 ≤ 152 + count → n.word i = 0 := by
    intro i hLow hHigh
    have hByte : ∀ j, i ≤ j → j < i + 4 → n.byte j = 0 := by
      intro j hj hj'
      rw [h.byte j (by omega), byte_of_le (by omega)]
    rw [word_of_le (by omega), hByte i (by omega) (by omega), hByte (i + 1) (by omega) (by omega),
      hByte (i + 2) (by omega) (by omega), hByte (i + 3) (by omega) (by omega)]
    rfl
  refine ⟨hSizeN, by omega, ?_, hHeader, ?_, ?_, ?_⟩
  · rw [h.word (by omega), hNext]
  · rw [← hEpilogue]
    congr 1
    omega
  · rcases Nat.eq_or_lt_of_le hMin with rfl | hLarge
    · exact Or.inl ⟨rfl, hFooter, hEpilogue⟩
    · exact Or.inr ⟨by omega, hFresh 152 le_rfl (by omega), hFresh 156 (by decide) (by omega)⟩
  · intro k hk
    rw [h.word (by omega)]
    exact hSlots k hk

/-- Merging takes the annexed block for a free block before itself, which is in no bucket. -/
theorem Severed.coalesce {count : Nat} (h : m.Severed count) (hMod : count % 8 = 0) :
    ∃ fault, m.coalesce 148 = .error fault := by
  obtain ⟨hSize, hSmall, hBefore, hHeader, hEpilogue, hLinks, hSlots⟩ := h
  have hTag : (m.tag 148).size = count := by
    rw [tag, hHeader, Tag.size_mk hMod]
  have hTagBefore : (m.tag (148 - 4)).isAllocated = false ∧ (m.tag (148 - 4)).size = 0 := by
    rw [tag, hBefore]
    exact ⟨rfl, rfl⟩
  have hTagAfter : (m.tag (148 + count)).isAllocated = true := by
    rw [tag, hEpilogue]
    rfl
  have hPredecessor : m.predecessor 148 = .ok 148 := by
    rw [predecessor_eq_ok (by decide) (by omega) (by rw [hTagBefore.2]; decide), hTagBefore.2]
  obtain ⟨k, hk, hBucket⟩ := Bucket.ofSize?_of_le (show count ≤ 2 ^ 31 by omega)
  rw [Memory.coalesce, tagBefore_eq_ok (by decide) (by omega), ok_bind, successor_eq_ok (by omega),
    ok_bind, hTag, tagAt_eq_ok (by omega), ok_bind, sizeAt_eq_ok (by omega), ok_bind, hTagBefore.1,
    hTagAfter]
  dsimp only
  rw [hPredecessor, ok_bind, sizeAt_eq_ok (by omega), ok_bind, hTag, plus_eq_ok (by omega), ok_bind,
    removeFree, sizeAt_eq_ok (by omega), ok_bind, hTag, Bucket.ofSize, hBucket]
  dsimp only
  rcases hLinks with ⟨rfl, hNext, hPrev⟩ | ⟨hLarge, hNext, hPrev⟩
  · -- The links are the footer and the epilogue, and the merged block reaches past the memory.
    obtain ⟨n, hRun, hSizeN⟩ : ∃ n, m.unlink k 148 = .ok n ∧ n.size = m.size := by
      refine ⟨_, unlink_eq_ok (by omega) (by omega) (Or.inr (by rw [hNext]; omega))
        (Or.inr (by rw [hPrev]; omega)), ?_⟩
      simp only [size_setWord, size_linkBack]
    rw [ok_bind, hRun, ok_bind, pure_bind]
    dsimp only
    rw [Tag.free_eq_ok rfl (by decide), ok_bind,
      writeTags_of_short (by decide) (by decide) (by omega) (by rw [hSizeN, hSize]; decide)]
    exact ⟨.outOfBounds, rfl⟩
  · refine ⟨.staleHead, ?_⟩
    have hHead : blockNamed (m.word (Bucket.slot k)) ≠ some 148 := by
      rw [← blockNamed_of_ne (show 148 ≠ 0 by decide)]
      exact fun hEq => hSlots k hk (blockNamed_inj.mp hEq)
    rw [ok_bind, unlink, next_eq_ok (by omega), ok_bind, previous_eq_ok (by omega), ok_bind, hNext,
      hPrev, blockNamed_zero]
    dsimp only
    rw [head_eq_ok (by omega), ok_bind, ensure, if_neg hHead]
    rfl

theorem not_orderly {s : Shape} (hSize : 144 < m.size) (hHeader : m.word 140 < 32) :
    ¬ m.Orderly s := by
  intro h
  have hTiling := h.tiling
  rcases hBlocks : s.blocks with _ | ⟨b, bs⟩
  · rw [hBlocks] at hTiling
    simp only [Tiling] at hTiling
    omega
  · have hMem : b ∈ s.blocks := by
      rw [hBlocks]
      exact List.mem_cons_self
    rw [hBlocks] at hTiling
    have hOffset : b.offset = 140 := hTiling.1
    have hFits := (h.header b hMem).1
    have hLarge := h.large b hMem
    rw [hOffset] at hFits
    omega

end Memory

namespace Heap

variable {S : Type} {h h' : Heap S}

theorem update_eq_error {α : Type} {f : Memory → Checked (α × Memory)} {fault : Fault}
    (hRun : f h.memory = .error fault) : h.update f = .error fault := by
  obtain ⟨⟨memory, supply, lowBound⟩, config, metrics, journal⟩ := h
  change (f memory >>= _) = _
  rw [show f memory = .error fault from hRun]
  rfl

theorem verify_whole_iff {space : Nat} (hShows : h.memory.Shows (Shape.whole space)) :
    h.verify = .ok (.ok ()) ↔ 32 ≤ space := by
  have hBounds := hShows.bounds List.mem_cons_self
  have hLe := hShows.size_le
  dsimp only at hBounds
  constructor
  · intro hVerify
    obtain ⟨s, hOrderly⟩ := Memory.verify_eq_ok_iff.mp hVerify
    have hHeader := hShows.header _ List.mem_cons_self
    apply Decidable.byContradiction
    intro hShort
    refine Memory.not_orderly (by omega) ?_ hOrderly
    rw [show h.memory.word 140 = _ from hHeader, Block.word_of_free rfl]
    exact Nat.not_le.mp hShort
  · intro hLarge
    have hRest : h.memory.AtRest (Shape.whole space) :=
      ⟨hShows, Shape.settled_whole hLarge (by omega)⟩
    exact Memory.verify_eq_ok_iff.mpr ⟨_, hRest.sound.toOrderly⟩

section Initialisation

variable [Supply S] (hPrepare : h.prepare = (.ok (), h')) (hLow : 144 ≤ h'.currentSize)
  (hHigh : h'.currentSize ≤ 2 ^ 31) (hMod : h'.currentSize % 8 = 0)
  (hMin : 8 ≤ h'.config.chunkSize) (hChunk : h'.config.chunkSize % 8 = 0)
  (hWord : h'.config.chunkSize < 2 ^ 64)

include hPrepare hMin hChunk

theorem init_of_eight (hSize : h'.currentSize = 144) (hEight : h'.config.chunkSize = 8) :
    (∃ error h'', h.init = .ok (.error error, h'')) ∨
      ∃ h'', h.init = .ok (.ok (), h'') ∧ h''.verify ≠ .ok (.ok ()) := by
  have hSize' : h'.memory.size = 144 := hSize
  obtain ⟨n, hFormat, hSizeN, hShows⟩ := Memory.format_shows (m := h'.memory) (by omega) (by omega)
    (by omega) (by omega)
  have hSizeF : (h'.formatted n).currentSize = 144 := hSizeN.trans hSize'
  rcases hGrow : (h'.formatted n).arena.grow h'.config.chunkSize with ⟨error | start, a⟩
  · exact Or.inl ⟨_, _, init_of_refused hPrepare hFormat
      (extend_of_refused hChunk (by omega) hGrow)⟩
  · rw [hSize'] at hShows
    obtain ⟨rfl, hExtend, _⟩ := Arena.grow_ok hGrow
    obtain ⟨p, hAnnex, hAnnexed, hShowsP⟩ := hShows.annex hExtend hMin hChunk (by omega)
    have hSizeP := hAnnexed.size
    rw [hEight] at hSizeP hShowsP
    have hBlock : n.size - 4 = 140 := by omega
    have hSliver : p.Sliver := by
      refine ⟨by omega, by omega, ?_, fun k hk => hShowsP.thread k hk⟩
      have hHeader := hShowsP.header _ List.mem_cons_self
      rwa [hBlock] at hHeader
    have hEpilogue := hShowsP.epilogue
    rw [show p.size - 4 = 148 by omega] at hEpilogue
    obtain ⟨q, hMerge, hSizeQ, hHeader⟩ := hSliver.coalesce hShowsP.prologueFooter hEpilogue
    rw [← hBlock] at hMerge
    have hRun : (h'.formatted n).extend h'.config.chunkSize =
        .ok (.ok (n.size - 4), (h'.formatted n).grown a h'.config.chunkSize q) := by
      rw [extend_of_annexed hChunk (by omega) hGrow hAnnex (by omega),
        update_eq_ok (h := (h'.formatted n).grown a _ p) (f := (·.coalesce _)) hMerge]
      rfl
    refine Or.inr ⟨_, init_of_extended hPrepare hFormat hRun, ?_⟩
    intro hVerify
    obtain ⟨s, hOrderly⟩ := Memory.verify_eq_ok_iff.mp hVerify
    exact Memory.not_orderly (m := q) (by omega) (by rw [hHeader]; decide) hOrderly

include hWord

/-- On eight bytes of space, initialisation faults if the growth is granted. -/
theorem init_of_sliver (hSize : h'.currentSize = 152) :
    if 152 + h'.config.chunkSize ≤ 2 ^ 31 ∧
        (Supply.request h'.arena.supply 152 h'.config.chunkSize).1 = .ok ()
    then ∃ fault, h.init = .error fault else ∃ error h'', h.init = .ok (.error error, h'') := by
  obtain ⟨n, hFormat, hSizeN, hNext, hSlots⟩ := Memory.format_sliver (m := h'.memory) hSize
  have hSize' : (h'.formatted n).currentSize = 152 := hSizeN
  split
  · rename_i hGranted
    obtain ⟨hSmall, hAnswer⟩ := hGranted
    have hRequest : (Supply.request (h'.formatted n).arena.supply (h'.formatted n).arena.size
        h'.config.chunkSize).1 = .ok () := by
      rw [show (h'.formatted n).arena.size = 152 from hSizeN]
      exact hAnswer
    obtain ⟨a, hGrow⟩ := Arena.grow_of_granted hRequest
      (by rw [show (h'.formatted n).arena.size = 152 from hSizeN]; omega)
    have hExtend : n.extend? h'.config.chunkSize = some a.memory := (Arena.grow_ok hGrow).2.1
    obtain ⟨p, hAnnex, hAnnexed⟩ := Memory.annex_eq_ok hExtend (by omega) hMin hChunk (by omega)
    obtain ⟨fault, hMerge⟩ := (hAnnexed.severed hSizeN hNext hSlots hMin hChunk hSmall).coalesce hChunk
    have hMerge' : p.coalesce (n.size - 4) = .error fault := by
      rw [hSizeN]
      exact hMerge
    refine ⟨fault, init_of_fault hPrepare hFormat ?_⟩
    rw [extend_of_annexed hChunk (by rwa [hSize']) hGrow hAnnex hAnnexed.size,
      update_eq_error (h := (h'.formatted n).grown a _ p) (f := (·.coalesce _)) hMerge']
    rfl
  · rename_i hDenied
    rcases Nat.lt_or_ge (2 ^ 31) (152 + h'.config.chunkSize) with hLarge | hSmall
    · exact ⟨_, _, init_of_refused hPrepare hFormat
        (extend_of_large hChunk (by omega) (by rwa [hSize']))⟩
    · rcases hAnswer : (Supply.request (h'.formatted n).arena.supply (h'.formatted n).arena.size
          h'.config.chunkSize).1 with error | _
      · obtain ⟨a, hGrow⟩ := Arena.grow_of_refused hAnswer
        exact ⟨_, _, init_of_refused hPrepare hFormat
          (extend_of_refused hChunk (by rwa [hSize']) hGrow)⟩
      · rw [show (h'.formatted n).arena.size = 152 from hSizeN] at hAnswer
        exact absurd ⟨hSmall, hAnswer⟩ hDenied

include hLow hHigh hMod

theorem init_of_space (hSize : h'.currentSize ≠ 152) :
    ∃ answer h'', h.init = .ok (answer, h'') ∧ (answer = .ok () →
      (h''.verify = .ok (.ok ()) ↔ 32 ≤ h'.currentSize - 144 + h'.config.chunkSize)) := by
  rcases Nat.lt_or_ge (h'.currentSize - 144 + h'.config.chunkSize) 16 with hSmall | hRoom
  · rcases init_of_eight hPrepare hMin hChunk (by omega) (by omega) with
      ⟨error, h'', hRun⟩ | ⟨h'', hRun, hNot⟩
    · refine ⟨_, h'', hRun, ?_⟩
      intro hDone
      cases hDone
    · exact ⟨_, h'', hRun, fun _ => ⟨fun hVerify => absurd hVerify hNot, fun _ => by omega⟩⟩
  · rcases init_of_prepared hPrepare hLow hHigh hMod hSize hMin hChunk hWord hRoom with
      ⟨error, h'', hRun, _, _⟩ | ⟨h'', hRun, _, hShows⟩
    · refine ⟨_, h'', hRun, ?_⟩
      intro hDone
      cases hDone
    · exact ⟨_, h'', hRun, fun _ => verify_whole_iff hShows⟩

theorem init_verifies :
    ((∃ fault, h.init = .error fault) ↔ h'.currentSize = 152 ∧
      152 + h'.config.chunkSize ≤ 2 ^ 31 ∧
        (Supply.request h'.arena.supply 152 h'.config.chunkSize).1 = .ok ()) ∧
      ∀ h'', h.init = .ok (.ok (), h'') →
        (h''.verify = .ok (.ok ()) ↔ 32 ≤ h'.currentSize - 144 + h'.config.chunkSize) := by
  by_cases hSliver : h'.currentSize = 152
  · have hEnd := init_of_sliver hPrepare hMin hChunk hWord hSliver
    split at hEnd
    · rename_i hGranted
      obtain ⟨fault, hRun⟩ := hEnd
      refine ⟨⟨fun _ => ⟨hSliver, hGranted⟩, fun _ => ⟨fault, hRun⟩⟩, ?_⟩
      intro h'' hDone
      rw [hRun] at hDone
      cases hDone
    · rename_i hDenied
      obtain ⟨error, _, hRun⟩ := hEnd
      rw [hRun]
      refine ⟨⟨?_, fun hGranted => absurd hGranted.2 hDenied⟩, ?_⟩
      · rintro ⟨fault, hFault⟩
        cases hFault
      · intro h'' hDone
        cases hDone
  · obtain ⟨answer, _, hRun, hDone⟩ := init_of_space hPrepare hLow hHigh hMod hMin hChunk hWord hSliver
    rw [hRun]
    refine ⟨⟨?_, fun hNarrow => absurd hNarrow.1 hSliver⟩, ?_⟩
    · rintro ⟨fault, hFault⟩
      cases hFault
    · rintro h'' ⟨⟩
      exact hDone rfl

end Initialisation

section Construction

variable [Supply S] {arena : Arena S} {config : Config}

theorem ofArena_eq (hValid : config.validate = .ok ()) :
    ofArena arena config = init ⟨arena, config, {}, #[]⟩ >>= fun r => match r with
      | (.error error, _) => pure (.error error)
      | (.ok (), h) => pure (.ok h) := by
  rewrite [ofArena, hValid]
  rfl

theorem ofArena_eq_ok_iff (hValid : config.validate = .ok ()) :
    ofArena arena config = .ok (.ok h) ↔ init ⟨arena, config, {}, #[]⟩ = .ok (.ok (), h) := by
  rw [ofArena_eq hValid]
  rcases init ⟨arena, config, {}, #[]⟩ with fault | ⟨error | _, h'⟩
  · exact ⟨nofun, nofun⟩
  · exact ⟨nofun, nofun⟩
  · constructor
    · rintro ⟨⟩
      rfl
    · rintro ⟨⟩
      rfl

theorem validate_of_built (hBuild : ofArena arena config = .ok (.ok h)) :
    config.validate = .ok () := by
  unfold ofArena at hBuild
  split at hBuild
  · cases hBuild
  · assumption

theorem ofArena_eq_error_iff (hValid : config.validate = .ok ()) {fault : Fault} :
    ofArena arena config = .error fault ↔ init ⟨arena, config, {}, #[]⟩ = .error fault := by
  rw [ofArena_eq hValid]
  rcases init ⟨arena, config, {}, #[]⟩ with fault' | ⟨error | _, h'⟩
  · rw [error_bind, Except.error.injEq, Except.error.injEq]
  · exact ⟨nofun, nofun⟩
  · exact ⟨nofun, nofun⟩

/-- Building a heap on an arena of a size that is accepted faults on a sliver that may grow, and
nowhere else, and builds a heap in order if the space, with one chunk more, makes a block. -/
theorem ofArena_verifies (hValid : config.validate = .ok ()) (hWord : config.chunkSize < 2 ^ 64)
    (hSize : arena.size = 0 ∨ 144 ≤ arena.size ∧ arena.size % 8 = 0 ∧ arena.size ≤ 2 ^ 31) :
    ((∃ fault, ofArena arena config = .error fault) ↔ arena.size = 152 ∧
      152 + config.chunkSize ≤ 2 ^ 31 ∧
        (Supply.request arena.supply 152 config.chunkSize).1 = .ok ()) ∧
      ∀ h, ofArena arena config = .ok (.ok h) →
        (h.verify = .ok (.ok ()) ↔ 32 ≤ arena.size - 144 + config.chunkSize) := by
  obtain ⟨⟨hPos, hChunk⟩, _⟩ := Config.validate_eq_ok_iff.mp hValid
  simp only [ofArena_eq_ok_iff hValid, ofArena_eq_error_iff hValid]
  rcases hSize with hEmpty | ⟨hLow, hMod, hHigh⟩
  · rcases hGrow : arena.grow 144 with ⟨error | start, a⟩
    · rw [init_of_unprepared (prepare_of_refused (h := ⟨arena, config, {}, #[]⟩) hEmpty hGrow)]
      refine ⟨⟨?_, by omega⟩, ?_⟩
      · rintro ⟨fault, hFault⟩
        cases hFault
      · intro h hDone
        cases hDone
    · have hSizeA : a.size = 144 := by
        have hGrown := Memory.size_extend? (Arena.grow_ok hGrow).2.1
        change a.size = arena.size + 144 at hGrown
        omega
      obtain ⟨hFault, hDone⟩ := init_verifies (h := ⟨arena, config, {}, #[]⟩)
        (prepare_of_granted hEmpty hGrow) (le_of_eq hSizeA.symm)
        (le_trans (le_of_eq hSizeA) (by decide)) (congrArg (· % 8) hSizeA) (by dsimp only; omega)
        hChunk hWord
      refine ⟨hFault.trans ⟨?_, by omega⟩, ?_⟩
      · rintro ⟨hNarrow, _⟩
        exact absurd (hSizeA.symm.trans hNarrow) (by decide)
      · intro h hRun
        have hVerify : _ ↔ 32 ≤ a.size - 144 + config.chunkSize := hDone h hRun
        rw [hVerify, hSizeA, hEmpty]
  · exact init_verifies (h := ⟨arena, config, {}, #[]⟩) (prepare_of_sized hLow hMod) hLow hHigh hMod
      (by dsimp only; omega) hChunk hWord

theorem ofArena_sliver : ∃ arena : Arena Cap, arena.size = 152 ∧
    ∃ fault, ofArena arena {} = .error fault := by
  obtain ⟨hFault, _⟩ := @ofArena_verifies Cap _
    ⟨⟨Memory.zeros 152, by rw [Memory.size_zeros]; decide⟩, ⟨20971520⟩, 0⟩ {} rfl
    (by decide) (Or.inr (by
      change 144 ≤ (Memory.zeros 152).size ∧ (Memory.zeros 152).size % 8 = 0 ∧
        (Memory.zeros 152).size ≤ 2 ^ 31
      rw [Memory.size_zeros]
      decide))
  have hSize : (Memory.zeros 152).size = 152 := Memory.size_zeros 152
  exact ⟨⟨⟨Memory.zeros 152, _⟩, ⟨20971520⟩, 0⟩, hSize, hFault.mpr ⟨hSize, by decide, rfl⟩⟩

/-- A chunk of sixteen bytes is accepted, but what is built with it is out of order. -/
theorem ofArena_short_chunk : Config.validate { chunkSize := 16 } = .ok () ∧
    ∃ h, ofArena (.fresh (⟨20971520⟩ : Cap)) { chunkSize := 16 } = .ok (.ok h) ∧
      h.verify = .ok (.error (.badBlockSize 140 16)) := by
  have hRun : (match ofArena (.fresh (⟨20971520⟩ : Cap)) { chunkSize := 16 } with
      | .ok (.ok h) => match h.verify with
        | .ok (.error violation) => decide (violation = .badBlockSize 140 16)
        | _ => false
      | _ => false) = true := by
    decide +kernel
  refine ⟨rfl, ?_⟩
  rcases hBuild : ofArena (.fresh (⟨20971520⟩ : Cap)) { chunkSize := 16 } with _ | _ | h
  · rw [hBuild] at hRun
    cases hRun
  · rw [hBuild] at hRun
    cases hRun
  · refine ⟨h, rfl, ?_⟩
    rw [hBuild] at hRun
    dsimp only at hRun
    split at hRun
    · rename_i hVerify
      rw [hVerify, of_decide_eq_true hRun]
    · cases hRun

end Construction

end Heap

end TaggedHeap
