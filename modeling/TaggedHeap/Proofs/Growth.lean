import TaggedHeap.Heap.Growth
import TaggedHeap.Proofs.Format

/-! # Growing a heap in a shape

The three ways in which an attempt to grow ends, and what initialisation makes of each. Nothing is
assumed of the supply: it may refuse or grant as it likes.
-/

namespace TaggedHeap

theorem Memory.extend?_of_lt {m : Memory} {count : Nat} (h : m.size + count < 2 ^ 63) :
    ∃ n, m.extend? count = some n := by
  obtain ⟨bytes, hSmall⟩ := m
  exact ⟨_, dif_pos h⟩

theorem Arena.request_of_refused {S : Type} [Supply S] {a b : Arena S} {increment : Nat}
    {error : HeapError} (h : a.grow increment = (.error error, b))
    (hFits : a.size + increment < 2 ^ 63) :
    Supply.request a.supply a.size increment = (.error error, b.supply) := by
  obtain ⟨memory, supply, lowBound⟩ := a
  obtain ⟨grown, hExtend⟩ := Memory.extend?_of_lt hFits
  change memory.extend? increment = some grown at hExtend
  change Supply.request supply memory.size increment = _
  rcases hRequest : Supply.request supply memory.size increment with ⟨refusal | _, next⟩
  · simp only [grow, hRequest, Prod.mk.injEq, Except.error.injEq] at h
    obtain ⟨rfl, rfl⟩ := h
    rfl
  · simp [grow, hRequest, hExtend] at h

namespace Heap

variable {S : Type} [Supply S] {h : Heap S} {size : Nat}

theorem growArena_eq (h : Heap S) (size : Nat) :
    h.growArena size = ((h.arena.grow size).1, { h with arena := (h.arena.grow size).2 }) := rfl

theorem extend_of_large (hMod : size % 8 = 0) (hWord : size + 7 < 2 ^ 64)
    (hLarge : 2 ^ 31 < h.currentSize + size) : h.extend size = .ok (.error .outOfMemory, h) := by
  rw [extend, Layout.alignUp_of_dvd hWord hMod, ok_bind, if_pos hLarge]
  rfl

theorem extend_of_refused {error : HeapError} {a : Arena S} (hMod : size % 8 = 0)
    (hSmall : h.currentSize + size ≤ 2 ^ 31) (hGrow : h.arena.grow size = (.error error, a)) :
    h.extend size = .ok (.error error, { h with arena := a }) := by
  rw [extend, Layout.alignUp_of_dvd (by omega) hMod, ok_bind, if_neg (Nat.not_lt.mpr hSmall),
    growArena_eq, hGrow]
  rfl

/-- The heap after a growth by `size` bytes, with the grown arena laid out as `m`. -/
def grown (h : Heap S) (a : Arena S) (size : Nat) (m : Memory) : Heap S where
  arena := { a with memory := m }
  config := h.config
  metrics := h.metrics.growth
  journal := h.journal.push (.grew size (h.currentSize + size))

theorem extend_of_annexed {start block : Nat} {a : Arena S} {p : Memory} (hMod : size % 8 = 0)
    (hSmall : h.currentSize + size ≤ 2 ^ 31) (hGrow : h.arena.grow size = (.ok start, a))
    (hAnnex : a.memory.annex start size = .ok (block, p)) (hSize : p.size = h.currentSize + size) :
    h.extend size = (h.grown a size p).update (·.coalesce block) >>= fun r =>
      pure (.ok r.1, r.2) := by
  have hUpdate : Heap.update { h with arena := a } (·.annex start size) =
      .ok (block, { h with arena := { a with memory := p } }) :=
    update_eq_ok (h := { h with arena := a }) (f := (·.annex start size)) hAnnex
  rw [grown, ← hSize, extend, Layout.alignUp_of_dvd (by omega) hMod, ok_bind,
    if_neg (Nat.not_lt.mpr hSmall), growArena_eq, hGrow]
  dsimp only
  rw [hUpdate, ok_bind]
  rfl

/-- A growth that is granted becomes a free block that absorbs the last block if that is free. -/
theorem extend_of_granted {T : Tagging} {bs : List Block} {chains : Chains} {start : Nat}
    {a : Arena S} (hShows : h.memory.Shows ⟨bs, chains⟩ T)
    (hSigned : ∀ p ∈ bs.getLast?, h.memory.Signed p)
    (hListed : ∀ p ∈ bs.getLast?, p.allocated = false → ∃ k, p.offset ∈ chains k)
    (hMin : 8 ≤ size) (hMod : size % 8 = 0) (hSmall : h.currentSize + size ≤ 2 ^ 31)
    (hLarge : 16 ≤ (absorbed bs ⟨h.currentSize - 4, size, false⟩ []).size)
    (hGrow : h.arena.grow size = (.ok start, a)) :
    ∃ n, h.extend size = .ok (.ok (absorbed bs ⟨h.currentSize - 4, size, false⟩ []).offset,
        h.grown a size n) ∧
      n.size = h.currentSize + size ∧
      (∀ j, j + 4 < h.currentSize → ¬ Bookkeeping (bs ++ [⟨h.currentSize - 4, size, false⟩]) j →
        n.byte j = h.memory.byte j) ∧
      n.Shows (Shape.settle bs ⟨h.currentSize - 4, size, false⟩ [] chains) T := by
  have hSize : h.currentSize = h.memory.size := rfl
  have hStart : start = h.memory.size := (Arena.grow_ok hGrow).1
  have hExtend : h.memory.extend? size = some a.memory := (Arena.grow_ok hGrow).2.1
  have hLe := hShows.le_size
  obtain ⟨p, hAnnex, hAnnexed, hShowsP⟩ := hShows.annex hExtend hMin hMod (by rwa [← hSize])
  have hSizeP := hAnnexed.size
  obtain ⟨n, hMerge, hAgree, hShowsN⟩ := hShowsP.coalesce rfl
    (by
      intro k hk
      obtain ⟨b, hb, hOffset, _⟩ := hShows.listed.node k _ hk
      have hBounds := hShows.bounds hb
      dsimp only at hOffset
      omega)
    (by
      intro q hq hAllocated
      have hBounds := hShows.bounds (List.mem_of_getLast? hq)
      rw [Memory.tag, hAnnexed.word (by omega)]
      exact hSigned q hq hAllocated)
    hListed (fun _ hq => absurd hq (Option.not_mem_none _)) hLarge
  refine ⟨n, ?_, by rw [hAgree.size, hSizeP, hSize], ?_, hShowsN⟩
  · rw [hStart] at hGrow
    rw [extend_of_annexed hMod hSmall hGrow hAnnex hSizeP,
      update_eq_ok (h := h.grown a size p) (f := (·.coalesce _)) hMerge]
    rfl
  · intro j hj hOff
    rw [hAgree.byte j hOff, hAnnexed.byte j (Or.inl hj)]

theorem extend_unused {space start : Nat} {a : Arena S} (hShows : h.memory.Shows (Shape.unused space))
    (hSpace : h.currentSize = 144 + space) (hMin : 8 ≤ size) (hMod : size % 8 = 0)
    (hSmall : h.currentSize + size ≤ 2 ^ 31) (hLarge : 16 ≤ space + size)
    (hGrow : h.arena.grow size = (.ok start, a)) :
    ∃ n, h.extend size = .ok (.ok 140, h.grown a size n) ∧ n.size = h.currentSize + size ∧
      n.Shows (Shape.whole (space + size)) := by
  have hPlace : h.currentSize - 4 = 140 + space := by omega
  have hListed : ∀ p ∈ (Shape.unused space).blocks.getLast?, p.allocated = false →
      ∃ k, p.offset ∈ (Shape.unused space).chains k := by
    intro p hp _
    rcases Nat.eq_zero_or_pos space with rfl | hPos
    · cases hp
    · rw [Shape.unused, if_pos hPos] at hp ⊢
      obtain ⟨k, _, hBucket⟩ := Bucket.ofSize?_of_le (show space ≤ 2 ^ 31 by omega)
      cases hp
      exact ⟨k, Shape.mem_whole.mpr ⟨hBucket, rfl⟩⟩
  have hParts : h.memory.Shows ⟨(Shape.unused space).blocks, (Shape.unused space).chains⟩ := hShows
  obtain ⟨n, hRun, hSize, _, hShows'⟩ := extend_of_granted hParts
    (fun p hp => hParts.signed (List.mem_of_getLast? hp)) hListed hMin hMod hSmall
    (by rw [hPlace, Shape.absorbed_unused]; exact hLarge) hGrow
  rw [hPlace, Shape.absorbed_unused] at hRun
  rw [hPlace, Shape.settle_unused] at hShows'
  exact ⟨n, hRun, hSize, hShows'⟩

theorem prepare_of_sized (hLow : 144 ≤ h.currentSize) (hMod : h.currentSize % 8 = 0) :
    h.prepare = (.ok (), h) := by
  rw [prepare, if_neg (by omega), if_neg (by dsimp only [Layout.bareSize, Layout.alignment]; omega)]

theorem prepare_of_refused {error : HeapError} {a : Arena S} (hEmpty : h.currentSize = 0)
    (hGrow : h.arena.grow 144 = (.error error, a)) :
    h.prepare = (.error error, { h with arena := a }) := by
  rw [prepare, if_pos hEmpty, growArena_eq, hGrow]

theorem prepare_of_granted {start : Nat} {a : Arena S} (hEmpty : h.currentSize = 0)
    (hGrow : h.arena.grow 144 = (.ok start, a)) : h.prepare = (.ok (), { h with arena := a }) := by
  rw [prepare, if_pos hEmpty, growArena_eq, hGrow]

theorem init_of_unprepared {error : HeapError} {h' : Heap S}
    (hPrepare : h.prepare = (.error error, h')) : h.init = .ok (.error error, h') := by
  rw [init, hPrepare]
  rfl

/-- The heap over a memory that has just been formatted. -/
def formatted (h : Heap S) (m : Memory) : Heap S := (h.withMemory m).tally fun _ => {}

section Initialisation

variable {h' : Heap S} {reclaimed : Nat} {m : Memory}

theorem init_eq (hPrepare : h.prepare = (.ok (), h')) (hFormat : h'.memory.format = .ok (reclaimed, m)) :
    h.init = (h'.formatted m).extend h'.config.chunkSize >>= fun r => match r with
      | (.error error, h) => pure (.error error, h)
      | (.ok _, h) => pure (.ok (), h.log (.initialized h.currentSize reclaimed)) := by
  rw [init, hPrepare]
  dsimp only
  rw [update_eq_ok (f := (·.format)) hFormat, ok_bind]
  rfl

theorem init_of_fault {fault : Fault} (hPrepare : h.prepare = (.ok (), h'))
    (hFormat : h'.memory.format = .ok (reclaimed, m))
    (hExtend : (h'.formatted m).extend h'.config.chunkSize = .error fault) :
    h.init = .error fault := by
  rw [init_eq hPrepare hFormat, hExtend]
  rfl

theorem init_of_refused {error : HeapError} {h'' : Heap S} (hPrepare : h.prepare = (.ok (), h'))
    (hFormat : h'.memory.format = .ok (reclaimed, m))
    (hExtend : (h'.formatted m).extend h'.config.chunkSize = .ok (.error error, h'')) :
    h.init = .ok (.error error, h'') := by
  rw [init_eq hPrepare hFormat, hExtend]
  rfl

theorem init_of_extended {block : Nat} {h'' : Heap S} (hPrepare : h.prepare = (.ok (), h'))
    (hFormat : h'.memory.format = .ok (reclaimed, m))
    (hExtend : (h'.formatted m).extend h'.config.chunkSize = .ok (.ok block, h'')) :
    h.init = .ok (.ok (), h''.log (.initialized h''.currentSize reclaimed)) := by
  rw [init_eq hPrepare hFormat, hExtend]
  rfl

/-- How initialisation ends: all the space is unused, with a chunk more unless that is refused. -/
inductive Initialised (h' : Heap S) (run : Checked (Outcome S Unit)) : Prop where
  | refused (error : HeapError) (h'' : Heap S) (hRun : run = .ok (.error error, h''))
      (hConfig : h''.config = h'.config)
      (hShows : h''.memory.Shows (Shape.unused (h'.currentSize - 144)))
  | done (h'' : Heap S) (hRun : run = .ok (.ok (), h'')) (hConfig : h''.config = h'.config)
      (hShows : h''.memory.Shows (Shape.whole (h'.currentSize - 144 + h'.config.chunkSize)))

/-- A prepared heap can be initialised if there is room for the links of a free block, before the
growth if there is any space, and after it. -/
theorem init_of_prepared (hPrepare : h.prepare = (.ok (), h')) (hLow : 144 ≤ h'.currentSize)
    (hHigh : h'.currentSize ≤ 2 ^ 31) (hMod : h'.currentSize % 8 = 0) (hNarrow : h'.currentSize ≠ 152)
    (hMin : 8 ≤ h'.config.chunkSize) (hChunk : h'.config.chunkSize % 8 = 0)
    (hWord : h'.config.chunkSize < 2 ^ 64)
    (hRoom : 16 ≤ h'.currentSize - 144 + h'.config.chunkSize) : Initialised h' h.init := by
  obtain ⟨n, hFormat, hSize, hShows⟩ := Memory.format_shows (m := h'.memory) hLow hHigh hMod hNarrow
  have hSize' : (h'.formatted n).currentSize = h'.currentSize := hSize
  rcases Nat.lt_or_ge (2 ^ 31) (h'.currentSize + h'.config.chunkSize) with hLarge | hSmall
  · exact .refused .outOfMemory _ (init_of_refused hPrepare hFormat
      (extend_of_large hChunk (by omega) (by rwa [hSize']))) rfl hShows
  rcases hGrow : (h'.formatted n).arena.grow h'.config.chunkSize with ⟨error | start, a⟩
  · refine .refused error _ (init_of_refused hPrepare hFormat
      (extend_of_refused hChunk (by rwa [hSize']) hGrow)) rfl ?_
    change a.memory.Shows _
    rw [(Arena.grow_error hGrow).1]
    exact hShows
  · obtain ⟨p, hExtend, _, hShows'⟩ := extend_unused (h := h'.formatted n) hShows
      (by rw [hSize']; change _ = 144 + (h'.currentSize - 144); omega) hMin hChunk (by rwa [hSize']) hRoom hGrow
    exact .done _ (init_of_extended hPrepare hFormat hExtend) rfl hShows'

end Initialisation

end Heap

end TaggedHeap
