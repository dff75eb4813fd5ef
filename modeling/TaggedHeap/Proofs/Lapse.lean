import TaggedHeap.Proofs.Passage

/-! # Pointers that have lapsed

A released block may be merged again and again, but the word before its payload stays the header of
a free block: either it is that of the block as it is now, or it was left behind when the block was
absorbed, and nothing that is written from then on reaches it. So a pointer that has been released
is known as such until memory is handed out again.
-/

namespace TaggedHeap

section Absorption

variable {lo hi : Nat} {pre post : List Block} {b c : Block} {chains : Chains}

/-- A block stays in the row, or lies within what has absorbed it. -/
theorem mem_settle_or_within (h : Tiling lo (pre ++ b :: post) hi) (hc : c ∈ pre ++ b :: post) :
    c ∈ (Shape.settle pre b post chains).blocks ∨
      (absorbed pre b post).offset ≤ c.offset ∧
        c.offset + c.size ≤ (absorbed pre b post).offset + (absorbed pre b post).size := by
  obtain ⟨hPre, _, _, hPost⟩ := h.cut
  have hRow : c ∈ pre ∨ c = b ∨ c ∈ post :=
    (List.mem_append.mp hc).imp_right List.mem_cons.mp
  simp only [Shape.settle, absorbed, List.mem_append, List.mem_cons]
  rcases last_cases pre with hLast | ⟨l, p, rfl, hFree⟩ <;>
    rcases first_cases post with hFirst | ⟨n, r, rfl, hFree'⟩
  · rw [absorbBefore_of_allocated hLast, absorbAfter_of_allocated hFirst]
    exact Or.inl hRow
  · rw [absorbBefore_of_allocated hLast, absorbAfter_cons hFree']
    have hStart : n.offset = b.offset + b.size := hPost.1
    rcases hRow with hIn | rfl | hIn
    · exact Or.inl (Or.inl hIn)
    · exact Or.inr ⟨le_rfl, by dsimp only; omega⟩
    · rcases List.mem_cons.mp hIn with rfl | hIn
      · exact Or.inr ⟨by dsimp only; omega, by dsimp only; omega⟩
      · exact Or.inl (Or.inr (Or.inr hIn))
  · rw [absorbBefore_concat hFree, absorbAfter_of_allocated hFirst]
    have hStop : p.offset + p.size = b.offset := hPre.cut.2.2.2
    rcases hRow with hIn | rfl | hIn
    · rcases List.mem_append.mp hIn with hIn | hIn
      · exact Or.inl (Or.inl hIn)
      · rw [List.mem_singleton.mp hIn]
        exact Or.inr ⟨le_rfl, by dsimp only; omega⟩
    · exact Or.inr ⟨by dsimp only; omega, by dsimp only; omega⟩
    · exact Or.inl (Or.inr (Or.inr hIn))
  · rw [absorbBefore_concat hFree, absorbAfter_cons hFree']
    have hStop : p.offset + p.size = b.offset := hPre.cut.2.2.2
    have hStart : n.offset = b.offset + b.size := hPost.1
    rcases hRow with hIn | rfl | hIn
    · rcases List.mem_append.mp hIn with hIn | hIn
      · exact Or.inl (Or.inl hIn)
      · rw [List.mem_singleton.mp hIn]
        exact Or.inr ⟨le_rfl, by dsimp only; omega⟩
    · exact Or.inr ⟨by dsimp only; omega, by dsimp only; omega⟩
    · rcases List.mem_cons.mp hIn with rfl | hIn
      · exact Or.inr ⟨by dsimp only; omega, by dsimp only; omega⟩
      · exact Or.inl (Or.inr (Or.inr hIn))

/-- What has absorbed its neighbours begins where one of the blocks began. -/
theorem exists_offset_absorbed (pre : List Block) (b : Block) (post : List Block) :
    ∃ d ∈ pre ++ b :: post, d.offset = (absorbed pre b post).offset := by
  have hAfter : ∀ c : Block, (absorbAfter c post).1.offset = c.offset := by
    intro c
    rcases first_cases post with hFirst | ⟨n, r, rfl, hFree⟩
    · rw [absorbAfter_of_allocated hFirst]
    · rw [absorbAfter_cons hFree]
  rw [absorbed, hAfter]
  rcases last_cases pre with hLast | ⟨l, p, rfl, hFree⟩
  · rw [absorbBefore_of_allocated hLast]
    exact ⟨b, List.mem_append_right pre List.mem_cons_self, rfl⟩
  · rw [absorbBefore_concat hFree]
    exact ⟨p, List.mem_append_left _ List.mem_concat_self, rfl⟩

end Absorption

namespace Memory

/-- The word before a pointer into a free block is the header of a free block within it. If it is
not that of the block itself, it is out of reach of the links. -/
structure Remnant (m : Memory) (b : Block) (p size : Nat) : Prop where
  aligned : p % 8 = 0
  place : p = b.offset + 4 ∨ b.offset + 16 ≤ p
  word : m.word (p - 4) = size
  large : 32 ≤ size
  size_mod : size % 8 = 0
  inside : p - 4 + size ≤ b.offset + b.size

/-- Some free block has a remnant of what the pointer once led to. -/
def Lapsed (m : Memory) (bs : List Block) (p : Nat) : Prop :=
  ∃ b ∈ bs, b.allocated = false ∧ ∃ size, m.Remnant b p size

variable {m n : Memory} {s : Shape} {bs pre post : List Block} {chains : Chains} {b c : Block}
  {p size : Nat}

theorem Remnant.of_word (h : m.Remnant b p size) (hWord : n.word (p - 4) = m.word (p - 4)) :
    n.Remnant b p size :=
  { h with word := hWord.trans h.word }

theorem Shows.remnant (h : m.Shows s) (hb : b ∈ s.blocks) (hFree : b.allocated = false)
    (hLarge : 32 ≤ b.size) : m.Remnant b (b.offset + 4) b.size := by
  have hBounds := h.bounds hb
  refine ⟨by omega, Or.inl rfl, ?_, hLarge, hBounds.2.2.2.1, by omega⟩
  rw [Nat.add_sub_cancel, h.header b hb, Block.word_of_free hFree]

theorem Lapsed.blockOf (h : m.Lapsed s.blocks p) (hShows : m.Shows s) :
    m.blockOf p = .ok (.error .doubleFree) := by
  obtain ⟨b, hb, _, size, hAligned, hPlace, hWord, hLarge, hMod, hInside⟩ := h
  have hBounds := hShows.bounds hb
  have hSmall := m.size_lt_maxAddress
  have hSize : (m.tag (p - 4)).size = size := by rw [tag, hWord, Tag.size_mk hMod]
  have hFree : (m.tag (p - 4)).isAllocated = false := by
    rw [tag, hWord, Tag.isAllocated_mk hMod]
  rw [Memory.blockOf, minus_eq_ok (by omega), ok_bind,
    if_neg (by dsimp only [Layout.firstBlock, Layout.alignment]; omega), minus_eq_ok (by omega),
    ok_bind, tagAt_eq_ok (by omega), ok_bind,
    if_neg (by dsimp only [Layout.minBlock]; omega), plus_eq_ok (by omega), ok_bind,
    if_neg (by omega), hFree]
  rfl

/-- The bookkeeping of a row does not reach what lies deep in a free block. -/
theorem Remnant.word_of_bookkeeping (h : m.Remnant b p size) (hShows : m.Shows ⟨bs, chains⟩)
    (hb : b ∈ bs) (hDeep : b.offset + 16 ≤ p) (hAgree : m.AgreeOff n (Bookkeeping bs)) :
    n.word (p - 4) = m.word (p - 4) := by
  have hLarge := h.large
  have hInside := h.inside
  have hBounds := hShows.bounds hb
  apply hAgree.word
  rintro j hLow hHigh (hSlot | ⟨d, hd, _, hFrom, hTo, hEnds⟩)
  · omega
  · rcases hShows.tiling.eq_or_apart hb hd with rfl | hApart
    · omega
    · omega

/-- Merging does not concern a header that is not that of the merged block. -/
theorem Shows.word_of_rewritten (h : m.Shows ⟨bs, chains⟩) (hb : b ∈ bs) (hLarge : 32 ≤ b.size)
    (hStart : c.offset + 12 ≤ b.offset) (hStop : b.offset + b.size ≤ c.offset + c.size)
    (hAgree : m.AgreeOff n (Rewritten bs chains c)) : n.word b.offset = m.word b.offset := by
  have hBounds := h.bounds hb
  apply hAgree.word
  rintro j hLow hHigh (hLinks | ⟨_, hTags | hLinks⟩)
  · rcases h.listed.linkage hLinks with hSlot | ⟨d, hd, _, _, hFrom, hTo⟩
    · omega
    · rcases h.tiling.eq_or_apart hb hd with rfl | hApart
      · omega
      · omega
  · simp only [InTags] at hTags
    omega
  · omega

/-- Merging leaves the headers of what is absorbed behind. -/
theorem Lapsed.settle (h : m.Lapsed (pre ++ b :: post) p)
    (hShows : m.Shows ⟨pre ++ b :: post, chains⟩) (hFree : b.allocated = false)
    (hLarge : ∀ c ∈ pre ++ b :: post, 32 ≤ c.size)
    (hAgree : m.AgreeOff n (Rewritten (pre ++ b :: post) chains (absorbed pre b post)))
    (hShows' : n.Shows (Shape.settle pre b post chains)) :
    n.Lapsed (Shape.settle pre b post chains).blocks p := by
  obtain ⟨d, hd, hFreeD, size, hRemnant⟩ := h
  have hLargeD := hLarge d hd
  have hMerged : absorbed pre b post ∈ (Shape.settle pre b post chains).blocks :=
    List.mem_append_right _ List.mem_cons_self
  have hMergedFree : (absorbed pre b post).allocated = false := absorbed_free hFree
  have hMergedLarge : 32 ≤ (absorbed pre b post).size :=
    le_trans (hLarge b (List.mem_append_right pre List.mem_cons_self)) le_absorbed
  have hAgree' := hAgree.mono fun _ => Rewritten.bookkeeping hShows.listed
  rcases mem_settle_or_within hShows.tiling hd with hKept | ⟨hStart, hStop⟩
  · refine ⟨d, hKept, hFreeD, ?_⟩
    rcases hRemnant.place with rfl | hDeep
    · exact ⟨_, hShows'.remnant hKept hFreeD hLargeD⟩
    · exact ⟨size, hRemnant.of_word (hRemnant.word_of_bookkeeping hShows hd hDeep hAgree')⟩
  · refine ⟨_, hMerged, hMergedFree, ?_⟩
    have hInside := hRemnant.inside
    rcases hRemnant.place with rfl | hDeep
    · obtain ⟨a, ha, hOffset⟩ := exists_offset_absorbed pre b post
      have hLargeA := hLarge a ha
      rcases hShows.tiling.eq_or_apart hd ha with rfl | hApart
      · rw [hOffset]
        exact ⟨_, hShows'.remnant hMerged hMergedFree hMergedLarge⟩
      · have hSame := hShows.word_of_rewritten hd hLargeD (by omega) hStop hAgree
        have hMoved := hRemnant.of_word (n := n) (by rwa [Nat.add_sub_cancel])
        exact ⟨size, { hMoved with place := Or.inr (by omega), inside := by omega }⟩
    · have hMoved := hRemnant.of_word (hRemnant.word_of_bookkeeping hShows hd hDeep hAgree')
      exact ⟨size, { hMoved with place := Or.inr (by omega), inside := by omega }⟩

/-- What is written into an allocated block does not concern the free ones. -/
theorem Remnant.word_of_allocated (h : m.Remnant b p size) (hShows : m.Shows s)
    (hb : b ∈ s.blocks) (hFree : b.allocated = false) (hc : c ∈ s.blocks)
    (hAllocated : c.allocated = true)
    (hAgree : m.AgreeOff n fun j => c.offset ≤ j ∧ j < c.offset + c.size) :
    n.word (p - 4) = m.word (p - 4) := by
  have hPlace := h.place
  have hLarge := h.large
  have hInside := h.inside
  have hBounds := hShows.bounds hb
  rcases hShows.tiling.eq_or_apart hb hc with rfl | hApart
  · rw [hFree] at hAllocated
    cases hAllocated
  · apply hAgree.word
    omega

/-- A pointer lapses when its block is freed, and stays so when others are. -/
theorem lapsed_of_free {t : Shape} (hRest : m.AtRest s) (hb : b ∈ s.blocks)
    (hAllocated : b.allocated = true) (hRun : m.free b.offset = .ok n) (hRest' : n.AtRest t)
    (hPointer : p = b.offset + 4 ∨ m.Lapsed s.blocks p) : n.Lapsed t.blocks p := by
  obtain ⟨bs, chains⟩ := s
  obtain ⟨pre, post, rfl⟩ := List.append_of_mem hb
  have hBounds := hRest.shows.bounds hb
  obtain ⟨n₁, n', hRun', hAgree₁, hShows₁, hAgree, hShows, hSettled⟩ :=
    hRest.shows.free_exact hRest.settled hAllocated
      fun p hp => hRest.signed (List.mem_append_left (b :: post) (List.mem_of_getLast? hp))
  rw [hRun] at hRun'
  cases hRun'
  have hShape := hShows.unique hRest'.shows
  subst hShape
  refine Lapsed.settle ?_ hShows₁ rfl (hRest.settled.large_retag false) hAgree hShows
  rcases hPointer with rfl | ⟨c, hc, hFree, size, hRemnant⟩
  · have hFreed : (⟨b.offset, b.size, false⟩ : Block) ∈ pre ++ ⟨b.offset, b.size, false⟩ :: post :=
      List.mem_append_right pre List.mem_cons_self
    exact ⟨_, hFreed, rfl, b.size, hShows₁.remnant hFreed rfl (hRest.settled.large b hb)⟩
  · have hSame := hRemnant.word_of_allocated hRest.shows hc hFree hb hAllocated
      (hAgree₁.mono fun j hj => by simp only [InTags] at hj; omega)
    refine ⟨c, (mem_row_cases _ hc).resolve_left ?_, hFree, size, hRemnant.of_word hSame⟩
    rintro rfl
    rw [hFree] at hAllocated
    cases hAllocated

/-- What a request does to a memory if it hands out nothing: it fills a payload, or frees a block, or
changes nothing. -/
inductive Idles (m : Memory) (s : Shape) (n : Memory) : Prop where
  | same (hSame : n = m)
  | filled {b : Block} (hb : b ∈ s.blocks) (hAllocated : b.allocated = true)
      (hAgree : m.AgreeOff n fun j => b.offset + 4 ≤ j ∧ j + 4 < b.offset + b.size)
  | freed {b : Block} (hb : b ∈ s.blocks) (hAllocated : b.allocated = true)
      (hFree : m.free b.offset = .ok n)

theorem Idles.lapsed {t : Shape} (h : m.Idles s n) (hRest : m.AtRest s) (hRest' : n.AtRest t)
    (hLapsed : m.Lapsed s.blocks p) : n.Lapsed t.blocks p := by
  cases h with
  | same hSame =>
    subst hSame
    rwa [hRest'.shows.unique hRest.shows]
  | filled hb hAllocated hAgree =>
    rw [hRest'.shows.unique (hRest.refill hb hAllocated hAgree).shows]
    obtain ⟨c, hc, hFree, size, hRemnant⟩ := hLapsed
    have hSame := hRemnant.word_of_allocated hRest.shows hc hFree hb hAllocated
      (hAgree.mono (by omega))
    exact ⟨c, hc, hFree, size, hRemnant.of_word hSame⟩
  | freed hb hAllocated hFree =>
    exact lapsed_of_free hRest hb hAllocated hFree hRest' (Or.inr hLapsed)

end Memory

namespace Heap

variable {S : Type} {h h' : Heap S} {s : Shape} {b : Block} {p size : Nat}

/-- Whatever is tried with the pointer is rejected for one reason, and changes neither the memory
nor the metrics. -/
structure RejectsAs [Supply S] (h : Heap S) (error : HeapError) (p : Nat) : Prop where
  release : ∃ h', h.release p = .ok (.error error, h') ∧ h'.memory = h.memory ∧
    h'.metrics = h.metrics
  usableSize : h.usableSize p = .ok (.error error)
  payload : h.payload p = .ok (.error error)
  writePayload : ∀ start data, h.writePayload p start data = .ok (.error error, h)
  fillPayload : ∀ count x, h.fillPayload p count x = .ok (.error error, h)
  tryReallocate : ∀ size, ∃ h', h.tryReallocate (some p) size = .ok (.error error, h') ∧
    h'.memory = h.memory ∧ h'.metrics = h.metrics

theorem rejectsAs_of_blockOf [Supply S] {error : HeapError}
    (hBlock : h.memory.blockOf p = .ok (.error error)) : h.RejectsAs error p := by
  have hRelease : h.release p = .ok (.error error, h.log (.releaseRejected p error)) := by
    rw [release, hBlock, ok_bind]
    rfl
  have hUsable : h.usableSize p = .ok (.error error) := by
    rw [usableSize, hBlock, ok_bind]
    rfl
  refine ⟨⟨_, hRelease, rfl, rfl⟩, hUsable, ?_, ?_, ?_, ?_⟩
  · rw [payload, hUsable, ok_bind]
    rfl
  · intro start data
    rw [writePayload, hUsable, ok_bind]
    rfl
  · intro count x
    rw [fillPayload, hUsable, ok_bind]
    rfl
  · intro size
    unfold tryReallocate
    dsimp only
    split
    · rw [hRelease, ok_bind]
      exact ⟨_, rfl, rfl, rfl⟩
    · rw [hUsable, ok_bind]
      exact ⟨h, rfl, rfl, rfl⟩

theorem idles_release (hRest : h.memory.AtRest s)
    (hTakes : h.Takes s p) {answer : Except HeapError Unit} (hRun : h.release p = .ok (answer, h')) :
    h.memory.Idles s h'.memory := by
  rcases hTakes with hReject | ⟨b, hb, hAllocated, rfl⟩
  · obtain ⟨error, hRelease⟩ := release_of_rejects hReject
    rw [hRun] at hRelease
    cases hRelease
    exact .same rfl
  · obtain ⟨n, t, hFree, _, _, hRelease⟩ := release_eq hRest hb hAllocated
    rw [hRun] at hRelease
    cases hRelease
    exact .freed hb hAllocated hFree

theorem idles_write {answer : Except HeapError Unit} {start : Nat} {data : ByteArray}
    (hRest : h.memory.AtRest s) (hb : b ∈ s.blocks) (hAllocated : b.allocated = true)
    (hFits : start + data.size ≤ b.size - 8)
    (hRun : h.writePayload (b.offset + 4) start data = .ok (answer, h')) :
    h.memory.Idles s h'.memory := by
  obtain ⟨n, hDone, _, hAgree, _⟩ := writePayload_atRest hRest hb hAllocated start data hFits
  rw [hRun] at hDone
  cases hDone
  exact .filled hb hAllocated (hAgree.mono (by omega))

variable [Supply S]

theorem idles_tryAllocate (hRest : h.memory.AtRest s) (hConfig : h.config.Roomy)
    {answer : Except HeapError Nat} (hRun : h.tryAllocate size = .ok (answer, h'))
    (hNone : ∀ q, answer ≠ .ok q) : h.memory.Idles s h'.memory := by
  rcases tryAllocate_atRest hRest hConfig size with ⟨error, g, hRefused, hMemory, _⟩ |
      ⟨q, g, hDone, _⟩
  · rw [hRun] at hRefused
    cases hRefused
    exact .same hMemory
  · rw [hRun] at hDone
    cases hDone
    exact absurd rfl (hNone q)

theorem idles_tryReallocate (hRest : h.memory.AtRest s) (hConfig : h.config.Roomy)
    {pointer : Option Nat} (hTakes : ∀ p ∈ pointer, h.Takes s p)
    {answer : Except HeapError (Option Nat)}
    (hRun : h.tryReallocate pointer size = .ok (answer, h')) (hNone : ∀ q, answer ≠ .ok (some q)) :
    h.memory.Idles s h'.memory := by
  rcases tryReallocate_atRest hRest hConfig size hTakes with ⟨error, g, hRefused, hMemory, _⟩ |
      ⟨given, g, hDone, _, hPost⟩
  · rw [hRun] at hRefused
    cases hRefused
    exact .same hMemory
  · rw [hRun] at hDone
    cases hDone
    cases hPost with
    | none hSame => exact .same hSame
    | gained _ _ => exact absurd rfl (hNone _)
    | lost hZero hb hAllocated _ =>
      subst hZero
      obtain ⟨n, t, hFree, _, _, hRelease⟩ := release_eq hRest hb hAllocated
      rw [tryReallocate_of_released hRelease] at hRun
      cases hRun
      exact .freed hb hAllocated hFree
    | moved _ _ _ _ => exact absurd rfl (hNone _)

end Heap

namespace Session

variable {S : Type} [Supply S] {s u : Session S} {t : Shape} {r : Request} {p : Nat}

/-- The sessions that follow from one by requests that hand out no memory. -/
inductive Waits (s : Session S) : Session S → Prop where
  | start : Waits s s
  | step {t u : Session S} {r : Request} (hWaits : Waits s t) (hAllows : t.Allows r)
      (hInit : r ≠ .init) (hNone : ∀ q h, t.heap.perform r ≠ .ok (.ok (some q), h))
      (hStep : t.step r = .ok u) : Waits s u

theorem Steady.idles (hSteady : s.Steady t) (hAllows : s.Allows r) (hInit : r ≠ .init)
    (hNone : ∀ q h, s.heap.perform r ≠ .ok (.ok (some q), h)) (hStep : s.step r = .ok u) :
    s.heap.memory.Idles t u.heap.memory := by
  have hRest := hSteady.atRest
  obtain ⟨answer, hPerform, hPerforms⟩ := hSteady.performs hAllows hInit hStep
  have hAnswer : ∀ q, answer ≠ .ok (some q) := by
    rintro q rfl
    exact hNone q u.heap hPerform
  cases hPerforms with
  | allocate hRun =>
    refine Heap.idles_tryAllocate hRest hSteady.config hRun ?_
    rintro q rfl
    exact hAnswer q rfl
  | tryAllocate hRun =>
    refine Heap.idles_tryAllocate hRest hSteady.config hRun ?_
    rintro q rfl
    exact hAnswer q rfl
  | release hTakes hRun => exact Heap.idles_release hRest hTakes hRun
  | reallocate hTakes hRun =>
    refine Heap.idles_tryReallocate hRest hSteady.config hTakes hRun ?_
    rintro q rfl
    exact hAnswer q rfl
  | tryReallocate hTakes hRun =>
    exact Heap.idles_tryReallocate hRest hSteady.config hTakes hRun hAnswer
  | write hb hAllocated hFits hRun => exact Heap.idles_write hRest hb hAllocated hFits hRun

/-- A release hands out no memory. -/
theorem perform_release_ne (h : Heap S) (p q : Nat) (h' : Heap S) :
    h.perform (.release p) ≠ .ok (.ok (some q), h') := by
  intro hRun
  rw [Heap.perform, bind_eq_ok_iff] at hRun
  obtain ⟨⟨error | _, _⟩, _, hEq⟩ := hRun
  · cases hEq
  · cases hEq

theorem Waits.lapsed (hWaits : s.Waits u) (hSteady : s.Steady t)
    (hLapsed : s.heap.memory.Lapsed t.blocks p) :
    ∃ v, u.Steady v ∧ u.heap.memory.Lapsed v.blocks p := by
  induction hWaits with
  | start => exact ⟨t, hSteady, hLapsed⟩
  | step _ hAllows hInit hNone hStep ih =>
    obtain ⟨v, hSteady', hLapsed'⟩ := ih
    obtain ⟨s', w, hRun, hSteady''⟩ := hSteady'.step hAllows
    rw [hStep] at hRun
    cases hRun
    exact ⟨w, hSteady'', (hSteady'.idles hAllows hInit hNone hStep).lapsed hSteady'.atRest
      hSteady''.atRest hLapsed'⟩

/-- A pointer that has been released is rejected as such, whatever is done from then on without
memory being handed out. -/
theorem reaches_lapsed {supply : S} {config : Config} {h : Heap S}
    (hValid : config.validate = .ok ()) (hChunk : 32 ≤ config.chunkSize)
    (hWord : config.chunkSize < 2 ^ 64)
    (hBuild : Heap.ofArena (.fresh supply) config = .ok (.ok h)) (hReach : Reaches ⟨h, []⟩ s)
    {g : Grant} (hg : g ∈ s.live) :
    ∃ s', s.step (.release g.pointer) = .ok s' ∧
      s.heap.release g.pointer = .ok (.ok (), s'.heap) ∧
      ∀ u, Waits s' u → u.heap.RejectsAs .doubleFree g.pointer := by
  obtain ⟨t₀, hStart⟩ := steady_of_built ⟨hValid, hChunk, hWord⟩ hBuild
  obtain ⟨t, hSteady⟩ := hStart.reaches hReach
  obtain ⟨b, hb, hAllocated, hHolds⟩ := hSteady.grant g hg
  obtain ⟨n, v, hFree, _, hLoses, hRelease⟩ := Heap.release_eq hSteady.atRest hb hAllocated
  have hSteady' := hSteady.lose (h := ((s.heap.withMemory n).tally (·.release (b.size - 8))).log
    (.released (b.offset + 4) b.size)) hb hLoses rfl
  have hLapsed := Memory.lapsed_of_free hSteady.atRest hb hAllocated hFree hLoses.atRest (Or.inl rfl)
  rw [hHolds.pointer]
  refine ⟨_, by rw [step, hRelease, ok_bind]; rfl, hRelease, fun u hWaits => ?_⟩
  obtain ⟨w, hSteady'', hLapsed'⟩ := hWaits.lapsed hSteady' hLapsed
  exact Heap.rejectsAs_of_blockOf (hLapsed'.blockOf hSteady''.atRest.shows)

theorem reaches_lapsed_merged : ∃ s u : Session Cap, s.run [.release 184, .release 144] = .ok u ∧
    u.heap.blocks.map Block.offset = [140] ∧ u.heap.RejectsAs .doubleFree 184 := by
  have hPair : rehearse (⟨240⟩ : Cap) { chunkSize := 96 } [.allocate 8, .allocate 8]
      (fun s => s.live.map Grant.pointer == [184, 144] &&
        decide (s.Permits [.release 184, .release 144]) &&
        (s.run [.release 184, .release 144]).toOption.any fun u =>
          u.heap.blocks.map Block.offset == [140]) = true := by
    decide +kernel
  obtain ⟨h, s, hBuild, hPermits, hRun, hCheck⟩ := exists_of_rehearse hPair
  simp only [Bool.and_eq_true, beq_iff_eq, decide_eq_true_eq] at hCheck
  obtain ⟨⟨hPointers, hReleases⟩, hMerged⟩ := hCheck
  obtain ⟨u, hBoth, hMerged⟩ := exists_of_any hMerged
  obtain ⟨g, hg, hPointer⟩ := List.mem_map.mp (hPointers ▸ List.mem_cons_self)
  obtain ⟨t, hStep, _, hLapsed⟩ := reaches_lapsed rfl (by decide) (by decide) hBuild
    (Reaches.start.run hPermits hRun) hg
  rw [hPointer] at hStep hLapsed
  obtain ⟨hAllows, _⟩ := hReleases.2 t hStep
  have hLast : t.step (.release 144) = .ok u := by
    rw [← run_singleton]
    rwa [run, hStep, ok_bind] at hBoth
  have hWaits : Waits t u := .step (r := .release 144) .start hAllows
    (by simp) (perform_release_ne t.heap 144) hLast
  exact ⟨s, u, hBoth, eq_of_beq hMerged, hLapsed u hWaits⟩

end Session

end TaggedHeap
