import TaggedHeap.Proofs.Plan

/-! # Heaps follow plans

Every operation of a heap at rest comes down to that of the plan which the heap follows. A plan
knows where the blocks are and in which order the buckets have them, and knows no byte, so neither
what a payload holds nor what is left over in free space has a part in any answer.
-/

namespace TaggedHeap

namespace Memory.AtRest

variable {m : Memory} {s : Shape} {b : Block} {size pointer : Nat}

theorem row (h : m.AtRest s) (hb : b ∈ s.blocks) :
    m.AtRest ⟨s.before b ++ b :: s.after b, s.chains⟩ := by
  rw [← Shape.blocks_eq hb]
  exact h

theorem place_take (h : m.AtRest s) (hb : b ∈ s.blocks) (hFree : b.allocated = false)
    (hFits : size ≤ b.size) (hMin : 32 ≤ size) (hMod : size % 8 = 0) :
    ∃ n, m.place b.offset size = .ok n ∧ n.size = m.size ∧ n.AtRest (s.take b size) := by
  have hRow := h.row hb
  obtain ⟨n, hRun, hAgree, hShows, hSettled⟩ :=
    hRow.shows.place hRow.settled hFree hFits hMin hMod
  exact ⟨n, hRun, hAgree.size, hShows, hSettled⟩

theorem free_giveBack (h : m.AtRest s) (hb : b ∈ s.blocks) (hAllocated : b.allocated = true) :
    ∃ n, m.free b.offset = .ok n ∧ n.size = m.size ∧ n.AtRest (s.giveBack b) := by
  have hRow := h.row hb
  obtain ⟨n, hRun, hAgree, hShows, hSettled⟩ := hRow.shows.free hRow.settled hAllocated
      fun p hp => hRow.signed (List.mem_append_left _ (List.mem_of_getLast? hp))
  exact ⟨n, hRun, hAgree.size, hShows, hSettled⟩

theorem owner (h : m.AtRest s) (hb : b ∈ s.blocks) :
    s.owner (b.offset + 4) = if b.allocated then .ok b else .error .doubleFree := by
  rw [Shape.owner, Nat.add_sub_cancel, h.shows.blockAt hb]

theorem of_owner (h : m.AtRest s) (hOwner : s.owner pointer = .ok b) :
    b ∈ s.blocks ∧ b.allocated = true ∧ pointer = b.offset + 4 := by
  unfold Shape.owner at hOwner
  split at hOwner
  · rename_i c hAt
    split at hOwner
    · rename_i hAllocated
      cases hOwner
      have hb := List.mem_of_find?_eq_some hAt
      have hOffset := List.find?_some hAt
      rw [decide_eq_true_eq] at hOffset
      have hBounds := h.shows.bounds hb
      exact ⟨hb, hAllocated, by omega⟩
    · cases hOwner
  · cases hOwner

end Memory.AtRest

namespace Heap

namespace Follows

variable {S : Type} {h : Heap S} {p : Plan S} {pointer size : Nat} {b : Block}

theorem tally (hFollows : h.Follows p) (change : Metrics → Metrics) :
    (h.tally change).Follows (p.tally change) :=
  { hFollows with metrics := congrArg change hFollows.metrics }

theorem log (hFollows : h.Follows p) (event : Event) : (h.log event).Follows (p.log event) :=
  { hFollows with journal := congrArg (Array.push · event) hFollows.journal }

theorem reshape {n : Memory} {t : Shape} (hFollows : h.Follows p) (hRest : n.AtRest t)
    (hSize : n.size = h.memory.size) : (h.withMemory n).Follows (p.reshape t) :=
  { hFollows with atRest := hRest, size := hSize.trans hFollows.size }

theorem blockOf (hFollows : h.Follows p) (hNames : p.Names pointer) :
    h.memory.blockOf pointer = .ok ((p.shape.owner pointer).map Block.offset) := by
  rcases hNames with ⟨b, hb, rfl⟩ | hOutside
  · rw [hFollows.atRest.blockOf hb, hFollows.atRest.owner hb]
    split
    · rfl
    · rfl
  · have hSize := hFollows.size
    have hLe := hFollows.atRest.shows.le_size
    have hNone : p.shape.blockAt (pointer - 4) = none := by
      refine List.find?_eq_none.mpr fun b hb => ?_
      have hBounds := hFollows.atRest.shows.bounds hb
      rw [decide_eq_true_eq]
      omega
    rw [Memory.blockOf_of_outside (by omega) (by omega), Shape.owner, hNone]
    rfl

theorem release (hFollows : h.Follows p) (hNames : p.Names pointer) :
    Realizes (h.release pointer) (p.release pointer).1 (p.release pointer).2 := by
  unfold Heap.release Plan.release
  rw [hFollows.blockOf hNames, ok_bind]
  cases hOwner : p.shape.owner pointer with
  | error error => exact ⟨_, rfl, hFollows.log _⟩
  | ok b =>
    obtain ⟨hb, hAllocated, rfl⟩ := hFollows.atRest.of_owner hOwner
    obtain ⟨n, hFree, hSize, hRest⟩ := hFollows.atRest.free_giveBack hb hAllocated
    have hBounds := hFollows.atRest.shows.bounds hb
    refine ⟨_, ?_, ((hFollows.reshape hRest hSize).tally _).log _⟩
    dsimp only [Except.map]
    rw [hFollows.atRest.shows.sizeAt hb, ok_bind, edit_eq_ok hFree, ok_bind,
      minus_eq_ok (by omega), ok_bind]
    rfl

theorem formatted {n : Memory} (hFollows : h.Follows p) (hSize : n.size = h.memory.size)
    (hShows : n.Shows (Shape.unused (h.memory.size - 144))) :
    (h.formatted n).Follows p.formatted := by
  have hHigh := hFollows.atRest.shows.size_le
  have hCases := hFollows.atRest.size_cases
  rw [hFollows.size] at hShows hHigh hCases
  have hRest : n.AtRest (Shape.unused (p.size - 144)) :=
    ⟨hShows, Shape.settled_unused (by omega) (by omega)⟩
  exact (hFollows.reshape hRest hSize).tally _

section Allocation

variable [Supply S]

theorem extend (hFollows : h.Follows p) (hMin : 32 ≤ size) (hMod : size % 8 = 0)
    (hWord : size + 7 < 2 ^ 64) :
    Realizes (h.extend size) ((p.extend size).1.map Block.offset) (p.extend size).2 := by
  have hSize : h.currentSize = p.size := hFollows.size
  have hSupply := hFollows.supply
  unfold Plan.extend
  rcases Nat.lt_or_ge (2 ^ 31) (p.size + size) with hLarge | hSmall
  · rw [if_pos hLarge]
    exact ⟨h, extend_of_large hMod hWord (by omega), hFollows⟩
  rw [if_neg (Nat.not_lt.mpr hSmall), ← hSize, ← hSupply]
  rcases hGrow : h.arena.grow size with ⟨error | start, a⟩
  · have hRequest := Arena.request_of_refused hGrow
      (lt_of_le_of_lt (show h.currentSize + size ≤ 2 ^ 31 by omega) (by decide))
    change Supply.request h.arena.supply h.currentSize size = _ at hRequest
    rw [hRequest]
    have hMemory := (Arena.grow_error hGrow).1
    refine ⟨_, extend_of_refused hMod (by omega) hGrow,
      { hFollows with atRest := ?_, size := congrArg Memory.size hMemory, supply := rfl }⟩
    change a.memory.AtRest p.shape
    rw [hMemory]
    exact hFollows.atRest
  · have hRequest := (Arena.grow_ok hGrow).2.2.2
    change Supply.request h.arena.supply h.currentSize size = _ at hRequest
    rw [hRequest]
    obtain ⟨n, hRun, hSizeN, _, hRest⟩ :=
      extend_merges hFollows.atRest (fun a ha _ => hFollows.atRest.signed ha) hMin hMod (by omega) hGrow
    refine ⟨_, hRun, hRest, hSizeN, rfl, hFollows.config, ?_, ?_⟩
    · exact congrArg Metrics.growth hFollows.metrics
    · exact congrArg (Array.push · _) hFollows.journal

theorem extend_ok {q : Plan S} (hExtend : p.extend size = (.ok b, q)) :
    b ∈ q.shape.blocks ∧ b.allocated = false ∧ size ≤ b.size := by
  unfold Plan.extend at hExtend
  split at hExtend
  · cases hExtend
  · split at hExtend
    · cases hExtend
    · cases hExtend
      exact ⟨List.mem_append_right _ List.mem_cons_self, absorbed_free rfl,
        le_absorbed (b := ⟨p.size - 4, size, false⟩)⟩

theorem provide (hFollows : h.Follows p) (hConfig : p.config.Roomy) (hMin : 32 ≤ size)
    (hMod : size % 8 = 0) (hMax : size ≤ 2 ^ 31) :
    Realizes (h.provide size) ((p.provide size).1.map Block.offset) (p.provide size).2 := by
  have hChunk := hConfig.chunk_mod
  have hPadded := hConfig.padded
  unfold Heap.provide Plan.provide
  rw [hFollows.atRest.shows.findFit, ok_bind]
  cases hFit : p.shape.fit size with
  | none =>
    dsimp only [Option.map]
    rw [hFollows.config]
    exact hFollows.extend (by omega) (by omega) (by omega)
  | some b => exact ⟨h, rfl, hFollows⟩

theorem provide_ok {q : Plan S} (hFollows : h.Follows p) (hProvide : p.provide size = (.ok b, q)) :
    b ∈ q.shape.blocks ∧ b.allocated = false ∧ size ≤ b.size := by
  unfold Plan.provide at hProvide
  split at hProvide
  · rename_i hFit
    cases hProvide
    exact hFollows.atRest.shows.of_fit hFit
  · obtain ⟨hb, hFree, hFits⟩ := extend_ok hProvide
    exact ⟨hb, hFree, le_trans (le_max_left _ _) hFits⟩

theorem tryAllocate (hFollows : h.Follows p) (hConfig : p.config.Roomy) (size : Nat) :
    Realizes (h.tryAllocate size) (p.tryAllocate size).1 (p.tryAllocate size).2 := by
  unfold Heap.tryAllocate Heap.allocateBlock Plan.tryAllocate
  by_cases hZero : size = 0
  · rw [if_pos hZero, if_pos hZero]
    exact ⟨h, rfl, hFollows⟩
  rw [if_neg hZero, if_neg hZero]
  cases hBlock : blockSizeFor size with
  | error error =>
    cases error with
    | zeroSize => exact ⟨h, rfl, hFollows⟩
    | _ => exact ⟨_, rfl, (hFollows.tally _).log _⟩
  | ok blockSize =>
    obtain ⟨hRoom, hMod, hMax⟩ := blockSizeFor_eq_ok hBlock
    obtain ⟨h', hRun, hFollows'⟩ := hFollows.provide hConfig (by omega) hMod hMax
    dsimp only
    rw [hRun, ok_bind]
    rcases hProvide : p.provide blockSize with ⟨error | b, q⟩
    · rw [hProvide] at hFollows'
      cases error with
      | zeroSize => exact ⟨h', rfl, hFollows'⟩
      | _ => exact ⟨_, rfl, (hFollows'.tally _).log _⟩
    · obtain ⟨hb, hFree, hFits⟩ := hFollows.provide_ok hProvide
      rw [hProvide] at hFollows'
      obtain ⟨n, hPlace, hSize, hRest⟩ :=
        hFollows'.atRest.place_take hb hFree hFits (by omega) hMod
      have hMem : b.taken blockSize ∈ (q.shape.take b blockSize).blocks :=
        List.mem_append_right _ List.mem_cons_self
      have hBounds := hRest.shows.bounds hMem
      have hSmall := hRest.shows.size_le
      have hOffset : (b.taken blockSize).offset = b.offset := rfl
      refine ⟨_, ?_, ((hFollows'.reshape hRest hSize).tally _).log _⟩
      dsimp only [Except.map]
      rw [edit_eq_ok hPlace, ok_bind, pure_bind]
      dsimp only
      rw [memory_withMemory, ← hOffset, hRest.usableAt hMem, ok_bind, hRest.shows.sizeAt hMem,
        ok_bind, plus_eq_ok (by omega), ok_bind]
      rfl

/-- A payload moves as the plan says: what is copied lies between the tags of the new block. -/
theorem tryReallocate_live (hFollows : h.Follows p) (hConfig : p.config.Roomy)
    (hb : b ∈ p.shape.blocks) (hAllocated : b.allocated = true) (hSize : size ≠ 0) :
    Realizes (h.tryReallocate (some (b.offset + 4)) size)
      (p.tryReallocate (some (b.offset + 4)) size).1
      (p.tryReallocate (some (b.offset + 4)) size).2 := by
  have hOwner : p.shape.owner (b.offset + 4) = .ok b := by
    rw [hFollows.atRest.owner hb, if_pos hAllocated]
  obtain ⟨h', hRun, hFollows'⟩ := hFollows.tryAllocate hConfig size
  rw [Plan.tryReallocate, if_neg hSize, hOwner]
  rcases hAllocate : p.tryAllocate size with ⟨error | new, q⟩
  · rw [hAllocate] at hRun hFollows'
    exact ⟨h', tryReallocate_of_refused hFollows.atRest hb hAllocated hSize hRun, hFollows'⟩
  rw [hAllocate] at hRun hFollows'
  rcases tryAllocate_atRest hFollows.atRest (hFollows.config ▸ hConfig) size with
    ⟨error, _, hRun', _⟩ | ⟨_, h'', hRun', _, c, t, rfl, hRoom, hGains⟩
  · rw [hRun] at hRun'
    cases hRun'
  rw [hRun] at hRun'
  cases hRun'
  -- The plan has placed the new block where the heap has.
  obtain rfl : t = q.shape := hGains.atRest.shows.unique hFollows'.atRest.shows
  have hB : b ∈ q.shape.blocks := (hGains.mem_iff b hAllocated).mpr (Or.inr hb)
  have hC : c ∈ q.shape.blocks := (hGains.mem_iff c hGains.allocated).mpr (Or.inl rfl)
  have hBoundsB := hGains.atRest.shows.bounds hB
  have hBoundsC := hGains.atRest.shows.bounds hC
  have hOwner' : q.shape.owner (b.offset + 4) = .ok b := by
    rw [hGains.atRest.owner hB, if_pos hAllocated]
  obtain ⟨n, hMove, hAgree, _⟩ := Memory.move_spec (m := h'.memory) (b.offset + 4) (c.offset + 4)
    (min size (b.size - 8)) (by omega) (by omega)
  have hMoved : (h'.withMemory n).Follows q := hFollows'.reshape
    (hGains.atRest.refill hC hGains.allocated (hAgree.mono (by omega))) hAgree.size
  obtain ⟨h'', hRelease, hFollows''⟩ := hMoved.release (Or.inl ⟨b, hB, rfl⟩)
  rw [Plan.release, hOwner'] at hRelease hFollows''
  dsimp only
  rw [Plan.release, hOwner']
  exact ⟨_, tryReallocate_of_moved hFollows.atRest hb hAllocated hSize hRun hMove hRelease,
    (hFollows''.tally _).log _⟩

theorem tryReallocate {pointer : Option Nat} (hFollows : h.Follows p) (hConfig : p.config.Roomy)
    (size : Nat) (hNames : ∀ q ∈ pointer, p.Names q) :
    Realizes (h.tryReallocate pointer size) (p.tryReallocate pointer size).1
      (p.tryReallocate pointer size).2 := by
  cases pointer with
  | none =>
    obtain ⟨h', hRun, hFollows'⟩ := hFollows.tryAllocate hConfig size
    unfold Heap.tryReallocate Plan.tryReallocate
    dsimp only
    rw [hRun, ok_bind]
    rcases hAllocate : p.tryAllocate size with ⟨error | new, q⟩
    · rw [hAllocate] at hFollows'
      cases error with
      | zeroSize => exact ⟨h', rfl, hFollows'⟩
      | _ => exact ⟨h', rfl, hFollows'⟩
    · rw [hAllocate] at hFollows'
      exact ⟨h', rfl, hFollows'⟩
  | some old =>
    have hOld := hNames old rfl
    by_cases hZero : size = 0
    · obtain ⟨h', hRun, hFollows'⟩ := hFollows.release hOld
      unfold Heap.tryReallocate Plan.tryReallocate
      dsimp only
      rw [if_pos hZero, if_pos hZero, hRun, ok_bind]
      rcases hRelease : p.release old with ⟨error | _, q⟩
      · rw [hRelease] at hFollows'
        exact ⟨h', rfl, hFollows'⟩
      · rw [hRelease] at hFollows'
        exact ⟨h', rfl, hFollows'⟩
    · cases hOwner : p.shape.owner old with
      | error error =>
        refine ⟨h, ?_, ?_⟩
        · rw [Heap.tryReallocate, Plan.tryReallocate]
          dsimp only
          rw [if_neg hZero, if_neg hZero, usableSize, hFollows.blockOf hOld, hOwner]
          rfl
        · rw [Plan.tryReallocate, if_neg hZero, hOwner]
          exact hFollows
      | ok b =>
        obtain ⟨hb, hAllocated, rfl⟩ := hFollows.atRest.of_owner hOwner
        exact hFollows.tryReallocate_live hConfig hb hAllocated hZero

theorem init (hFollows : h.Follows p) (hConfig : p.config.Roomy) :
    Realizes h.init p.init.1 p.init.2 := by
  have hMod := hFollows.atRest.shows.size_mod
  have hLow := hFollows.atRest.shows.le_size
  have hHigh := hFollows.atRest.shows.size_le
  have hCases := hFollows.atRest.size_cases
  have hPrepare : h.prepare = (.ok (), h) := prepare_of_sized hLow hMod
  obtain ⟨n, hFormat, hSize, hShows⟩ := Memory.format_shows hLow hHigh hMod (by omega)
  obtain ⟨h', hRun, hFollows'⟩ := (hFollows.formatted hSize hShows).extend hConfig.chunk
    hConfig.chunk_mod hConfig.padded
  unfold Plan.init
  rcases hExtend : p.formatted.extend p.config.chunkSize with ⟨error | b, q⟩
  · rw [hExtend, ← hFollows.config] at hRun
    rw [hExtend] at hFollows'
    exact ⟨h', init_of_refused hPrepare hFormat hRun, hFollows'⟩
  · rw [hExtend, ← hFollows.config] at hRun
    rw [hExtend] at hFollows'
    refine ⟨_, init_of_extended hPrepare hFormat hRun, ?_⟩
    rw [show h'.currentSize = q.size from hFollows'.size, hFollows.size]
    exact hFollows'.log _

end Allocation

end Follows

end Heap

end TaggedHeap
