import TaggedHeap.Heap.Reallocation
import TaggedHeap.Proofs.Access
import TaggedHeap.Proofs.Growth
import TaggedHeap.Proofs.Search

/-! # The operations of a heap at rest

An operation on a heap at rest runs into no fault. Either it is refused and the bytes are what they
were, or it is done and gains, loses or moves the block that it is about.
-/

namespace TaggedHeap

/-- The settings under which a heap can grow in whole blocks. -/
structure Config.Roomy (c : Config) : Prop where
  valid : c.validate = .ok ()
  chunk : 32 ≤ c.chunkSize
  word : c.chunkSize < 2 ^ 64

theorem Config.Roomy.chunk_mod {c : Config} (h : c.Roomy) : c.chunkSize % 8 = 0 :=
  (Config.validate_eq_ok_iff.mp h.valid).1.2

theorem Config.Roomy.padded {c : Config} (h : c.Roomy) : c.chunkSize + 7 < 2 ^ 64 := by
  have hMod := h.chunk_mod
  have hWord := h.word
  omega

namespace Heap

variable {S : Type}

/-- How an operation ends: it is refused and changes no byte, or it is done and leaves what `post`
says. -/
inductive Ends {α : Type} (h : Heap S) (run : Checked (Outcome S α)) (post : α → Heap S → Prop) :
    Prop where
  | refused (error : HeapError) (h' : Heap S) (hRun : run = .ok (.error error, h'))
      (hMemory : h'.memory = h.memory) (hConfig : h'.config = h.config)
  | done (a : α) (h' : Heap S) (hRun : run = .ok (.ok a, h')) (hConfig : h'.config = h.config)
      (hPost : post a h')

section Allocation

variable [Supply S] {h : Heap S} {s : Shape} {T : Tagging} {size : Nat}

/-- The arena grows by `size` bytes if it is asked to. -/
def CanGrow (h : Heap S) (size : Nat) : Prop :=
  h.currentSize + size ≤ 2 ^ 31 ∧ ∃ start a, h.arena.grow size = (.ok start, a)

/-- A request for `size` bytes makes the arena grow: no free block has room for it, and the growth
is granted. -/
def Grows (h : Heap S) (size : Nat) : Prop :=
  size ≠ 0 ∧ ∃ blockSize, blockSizeFor size = .ok blockSize ∧
    h.memory.findFit blockSize = .ok none ∧ h.CanGrow (max blockSize h.config.chunkSize)

/-- A growth that is granted leaves what is new merged into the last block. -/
theorem extend_merges {start : Nat} {a : Arena S} (hRest : h.memory.AtRest s T)
    (hSigned : ∀ a ∈ s.blocks, a.offset + a.size + 4 = h.currentSize → h.memory.Signed a)
    (hMin : 32 ≤ size) (hMod : size % 8 = 0) (hSmall : h.currentSize + size ≤ 2 ^ 31)
    (hGrow : h.arena.grow size = (.ok start, a)) :
    ∃ n, h.extend size = .ok (.ok (absorbed s.blocks ⟨h.currentSize - 4, size, false⟩ []).offset,
        h.grown a size n) ∧
      n.size = h.currentSize + size ∧
      (∀ j, j + 4 < h.currentSize →
        ¬ Bookkeeping (s.blocks ++ [⟨h.currentSize - 4, size, false⟩]) j →
        n.byte j = h.memory.byte j) ∧
      n.AtRest (Shape.settle s.blocks ⟨h.currentSize - 4, size, false⟩ [] s.chains) T := by
  have hLe := hRest.shows.le_size
  have hSize : h.currentSize = h.memory.size := rfl
  obtain ⟨n, hRun, hSizeN, hBytes, hShows⟩ := extend_of_granted hRest.shows
    (fun p hp => hSigned p (List.mem_of_getLast? hp) (by
      have hStop := hRest.shows.tiling.stop hp
      omega))
    (fun p hp => hRest.settled.complete p (List.mem_of_getLast? hp)) (by omega) hMod hSmall
    (le_trans (show 16 ≤ size by omega)
      (le_absorbed (b := ⟨h.currentSize - 4, size, false⟩))) hGrow
  have hLarge : ∀ c ∈ s.blocks ++ [⟨h.currentSize - 4, size, false⟩], 32 ≤ c.size := by
    intro c hc
    rcases List.mem_append.mp hc with hOld | hNew
    · exact hRest.settled.large c hOld
    · rw [List.mem_singleton.mp hNew]
      exact hMin
  exact ⟨n, hRun, hSizeN, hBytes, hShows, hShows.settled_settle hLarge hRest.settled.fenced
    List.IsChain.nil fun c hc => hRest.settled.complete c (hc.resolve_right List.not_mem_nil)⟩

theorem extend_atRest (hRest : h.memory.AtRest s T) (size : Nat)
    (hSigned : h.CanGrow size →
      ∀ a ∈ s.blocks, a.offset + a.size + 4 = h.currentSize → h.memory.Signed a)
    (hMin : 32 ≤ size) (hMod : size % 8 = 0) (hWord : size + 7 < 2 ^ 64) :
    h.Ends (h.extend size) fun offset h' => ∃ b t, b ∈ t.blocks ∧ b.offset = offset ∧
      b.allocated = false ∧ size ≤ b.size ∧ h.memory.Carries s h'.memory t T := by
  rcases Nat.lt_or_ge (2 ^ 31) (h.currentSize + size) with hLarge | hSmall
  · exact .refused .outOfMemory h (extend_of_large hMod hWord hLarge) rfl rfl
  rcases hGrow : h.arena.grow size with ⟨error | start, a⟩
  · exact .refused error _ (extend_of_refused hMod hSmall hGrow) (Arena.grow_error hGrow).1 rfl
  have hSize : h.currentSize = h.memory.size := rfl
  obtain ⟨n, hRun, _, hBytes, hRest'⟩ :=
    extend_merges hRest (hSigned ⟨hSmall, start, a, hGrow⟩) hMin hMod hSmall hGrow
  have hFree : (Block.mk (h.currentSize - 4) size false).allocated = false := rfl
  refine .done _ _ hRun rfl ⟨_, _, List.mem_append_right _ List.mem_cons_self, rfl,
    absorbed_free hFree, le_absorbed (b := ⟨h.currentSize - 4, size, false⟩), hRest', ?_, ?_⟩
  · intro c hc
    rw [mem_settle_iff hFree hc, or_iff_left List.not_mem_nil]
  · intro c hc hAllocated j hLow hHigh
    have hBounds := hRest.shows.bounds hc
    refine hBytes j (by omega) ?_
    -- The new block begins where the epilogue was, behind all allocated ones.
    rintro (hSlot | ⟨d, hd, hFreeD, hInside⟩)
    · omega
    · rcases List.mem_append.mp hd with hOld | hNew
      · rcases hRest.shows.tiling.eq_or_apart hc hOld with rfl | hApart
        · rw [hAllocated] at hFreeD
          cases hFreeD
        · omega
      · rw [List.mem_singleton.mp hNew] at hInside
        dsimp only at hInside
        omega

theorem provide_atRest (hRest : h.memory.AtRest s T) (size : Nat)
    (hSigned : h.memory.findFit size = .ok none → h.CanGrow (max size h.config.chunkSize) →
      ∀ a ∈ s.blocks, a.offset + a.size + 4 = h.currentSize → h.memory.Signed a)
    (hValid : h.config.validate = .ok ()) (hWord : h.config.chunkSize < 2 ^ 64) (hMin : 32 ≤ size)
    (hMod : size % 8 = 0) (hMax : size ≤ 2 ^ 31) :
    h.Ends (h.provide size) fun offset h' => ∃ b t, b ∈ t.blocks ∧ b.offset = offset ∧
      b.allocated = false ∧ size ≤ b.size ∧ h.memory.Carries s h'.memory t T := by
  have hFind := hRest.shows.findFit size
  rw [provide, hFind, ok_bind]
  cases hFit : s.fit size with
  | none =>
    rw [hFit] at hFind
    have hChunk := (Config.validate_eq_ok_iff.mp hValid).1.2
    rcases extend_atRest hRest (max size h.config.chunkSize) (hSigned hFind) (by omega) (by omega)
      (by omega) with ⟨error, h', hRun, hMemory, hConfig⟩ |
        ⟨offset, h', hRun, hConfig, b, t, hb, hOffset, hFree, hFits, hCarries⟩
    · exact .refused error h' hRun hMemory hConfig
    · exact .done offset h' hRun hConfig ⟨b, t, hb, hOffset, hFree, by omega, hCarries⟩
  | some b =>
    obtain ⟨hb, hFree, hFits⟩ := hRest.shows.of_fit hFit
    exact .done b.offset h rfl rfl ⟨b, s, hb, rfl, hFree, hFits, .refl hRest⟩

theorem blockSizeFor_eq_ok {blockSize : Nat} (h : blockSizeFor size = .ok blockSize) :
    size + 32 ≤ blockSize ∧ blockSize % 8 = 0 ∧ blockSize ≤ 2 ^ 31 := by
  unfold blockSizeFor at h
  dsimp only [Layout.overhead, Layout.alignment, Layout.maxBlock] at h
  split at h
  · cases h
  · split at h
    · cases h
    · cases h
      omega

theorem allocateBlock_atRest (hRest : h.memory.AtRest s T) (size : Nat)
    (hSigned : h.Grows size →
      ∀ a ∈ s.blocks, a.offset + a.size + 4 = h.currentSize → h.memory.Signed a)
    (hValid : h.config.validate = .ok ()) (hWord : h.config.chunkSize < 2 ^ 64) :
    h.Ends (h.allocateBlock size) fun offset h' => ∃ b t, b.offset = offset ∧ size + 32 ≤ b.size ∧
      h.memory.Gains s b h'.memory t T := by
  unfold allocateBlock
  rcases eq_or_ne size 0 with hZero | hZero
  · exact .refused .zeroSize h (by rw [if_pos hZero]; rfl) rfl rfl
  rw [if_neg hZero]
  cases hBlock : blockSizeFor size with
  | error error => exact .refused error h rfl rfl rfl
  | ok blockSize =>
    obtain ⟨hRoom, hMod, hMax⟩ := blockSizeFor_eq_ok hBlock
    dsimp only
    rcases provide_atRest hRest blockSize
      (fun hFind hCan => hSigned ⟨hZero, blockSize, hBlock, hFind, hCan⟩) hValid hWord (by omega)
      hMod hMax with
      ⟨error, h', hRun, hMemory, hConfig'⟩ |
        ⟨offset, h', hRun, hConfig', b, t, hb, rfl, hFree, hFits, hCarries⟩
    · exact .refused error h' (by rw [hRun, ok_bind]; rfl) hMemory hConfig'
    · obtain ⟨n, u, hPlace, _, hGains⟩ := hCarries.atRest.place hb hFree hFits (by omega) hMod
      refine .done b.offset (h'.withMemory n) ?_ hConfig' ⟨b.taken blockSize, u, rfl,
        le_trans hRoom (Block.le_taken hFits), hCarries.gains hGains⟩
      rw [hRun, ok_bind]
      dsimp only
      rw [edit_eq_ok hPlace, ok_bind]
      rfl

/-- A pointer that is handed out is the payload of a new block that has room for the request. A
growth reads one tag that a walk along the headers does not: the last footer. -/
theorem tryAllocate_of_signed (hRest : h.memory.AtRest s T) (size : Nat)
    (hSigned : h.Grows size →
      ∀ a ∈ s.blocks, a.offset + a.size + 4 = h.currentSize → h.memory.Signed a)
    (hValid : h.config.validate = .ok ()) (hWord : h.config.chunkSize < 2 ^ 64) :
    h.Ends (h.tryAllocate size) fun p h' => ∃ b t, p = b.offset + 4 ∧ size + 32 ≤ b.size ∧
      h.memory.Gains s b h'.memory t T := by
  unfold tryAllocate
  rcases allocateBlock_atRest hRest size hSigned hValid hWord with
    ⟨error, h', hRun, hMemory, hConfig'⟩ | ⟨offset, h', hRun, hConfig', b, t, rfl, hRoom, hGains⟩
  · rw [hRun, ok_bind]
    cases error with
    | zeroSize => exact .refused _ h' rfl hMemory hConfig'
    | _ => exact .refused _ _ rfl hMemory hConfig'
  · have hMem := (hGains.mem_iff b hGains.allocated).mpr (Or.inl rfl)
    have hBounds := hGains.atRest.shows.bounds hMem
    have hSmall := hGains.atRest.shows.size_le
    refine .done (b.offset + 4) ((h'.tally (·.allocation (b.size - 8))).log
      (.allocated size b.size (b.offset + 4))) ?_ hConfig' ⟨b, t, rfl, hRoom, hGains⟩
    rw [hRun, ok_bind]
    dsimp only
    rw [hGains.atRest.usableAt hMem, ok_bind, hGains.atRest.shows.sizeAt hMem, ok_bind,
      plus_eq_ok (by omega), ok_bind]
    rfl

theorem tryAllocate_atRest (hRest : h.memory.AtRest s) (hConfig : h.config.Roomy) (size : Nat) :
    h.Ends (h.tryAllocate size) fun p h' => ∃ b t, p = b.offset + 4 ∧ size + 32 ≤ b.size ∧
      h.memory.Gains s b h'.memory t :=
  tryAllocate_of_signed hRest size (fun _ _ ha _ => hRest.signed ha) hConfig.valid hConfig.word

end Allocation

/-- The pointer is not one of an allocated block, and the heap says so. -/
def Rejects (h : Heap S) (p : Nat) : Prop :=
  ∃ error, h.memory.blockOf p = .ok (.error error)

instance (h : Heap S) (p : Nat) : Decidable (h.Rejects p) :=
  match hBlock : h.memory.blockOf p with
  | .ok (.error error) => .isTrue ⟨error, hBlock⟩
  | .ok (.ok _) => .isFalse fun ⟨_, hReject⟩ => nomatch hBlock.symm.trans hReject
  | .error _ => .isFalse fun ⟨_, hReject⟩ => nomatch hBlock.symm.trans hReject

section Release

variable {h : Heap S} {s : Shape} {p : Nat}

theorem usableSize_of_rejects (hReject : h.Rejects p) :
    ∃ error, h.usableSize p = .ok (.error error) := by
  obtain ⟨error, hBlock⟩ := hReject
  refine ⟨error, ?_⟩
  rw [usableSize, hBlock, ok_bind]
  rfl

theorem usableSize_atRest {b : Block} (hRest : h.memory.AtRest s) (hb : b ∈ s.blocks)
    (hAllocated : b.allocated = true) : h.usableSize (b.offset + 4) = .ok (.ok (b.size - 8)) :=
  usableSize_of_owns (hRest.owns hb hAllocated)

theorem payload_atRest {b : Block} (hRest : h.memory.AtRest s) (hb : b ∈ s.blocks)
    (hAllocated : b.allocated = true) :
    ∃ data, h.payload (b.offset + 4) = .ok (.ok data) ∧ data.size = b.size - 8 ∧
      ∀ j, (hj : j < data.size) → data[j] = h.memory.byte (b.offset + 4 + j) :=
  payload_of_owns (hRest.owns hb hAllocated)

/-- The same bytes in a block are the same payload. -/
theorem payload_of_keeps {h' : Heap S} {t : Shape} {b : Block} (hRest : h.memory.AtRest s)
    (hRest' : h'.memory.AtRest t) (hs : b ∈ s.blocks) (ht : b ∈ t.blocks)
    (hAllocated : b.allocated = true) (hKeeps : h.memory.Keeps h'.memory b) :
    h'.payload (b.offset + 4) = h.payload (b.offset + 4) := by
  obtain ⟨data, hRun, hSize, hBytes⟩ := payload_atRest hRest hs hAllocated
  obtain ⟨data', hRun', hSize', hBytes'⟩ := payload_atRest hRest' ht hAllocated
  have hSame : data' = data := by
    refine ByteArray.ext_getElem (hSize'.trans hSize.symm) fun j hj hj' => ?_
    rw [hBytes' j hj, hBytes j hj', hKeeps _ (by omega) (by omega)]
  rw [hRun, hRun', hSame]

theorem payloadHolds_atRest {b : Block} {count : Nat} {x : UInt8} (hRest : h.memory.AtRest s)
    (hb : b ∈ s.blocks) (hAllocated : b.allocated = true) (hFits : count + 8 ≤ b.size)
    (hBytes : ∀ j < count, h.memory.byte (b.offset + 4 + j) = x) :
    h.payloadHolds (b.offset + 4) count x = .ok (.ok true) :=
  payloadHolds_of_owns (hRest.owns hb hAllocated) (by omega) hBytes

theorem fillPayload_atRest {b : Block} (hRest : h.memory.AtRest s) (hb : b ∈ s.blocks)
    (hAllocated : b.allocated = true) (count : Nat) (x : UInt8) (hFits : count + 8 ≤ b.size) :
    ∃ n, h.fillPayload (b.offset + 4) count x = .ok (.ok (), h.withMemory n) ∧
      h.memory.AgreeOff n (fun j => b.offset + 4 ≤ j ∧ j + 4 < b.offset + b.size) ∧
      ∀ j < count, n.byte (b.offset + 4 + j) = x := by
  obtain ⟨n, hFill, hAgree, hBytes⟩ :=
    fillPayload_of_owns (hRest.owns hb hAllocated) count x (by omega)
  exact ⟨n, hFill, hAgree.mono (by omega), hBytes⟩

theorem release_of_rejects (hReject : h.Rejects p) :
    ∃ error, h.release p = .ok (.error error, h.log (.releaseRejected p error)) := by
  obtain ⟨error, hBlock⟩ := hReject
  refine ⟨error, ?_⟩
  rw [release, hBlock, ok_bind]
  rfl

/-- A release frees the block behind the pointer, counts it and logs it. -/
theorem release_of_signed {T : Tagging} {b : Block} (hRest : h.memory.AtRest s T)
    (hb : b ∈ s.blocks) (hAllocated : b.allocated = true)
    (hSigned : ∀ a ∈ s.blocks, a.offset + a.size = b.offset → h.memory.Signed a) :
    ∃ n t, h.memory.free b.offset = .ok n ∧ n.size = h.memory.size ∧ h.memory.Loses s b n t T ∧
      h.release (b.offset + 4) = .ok (.ok (), ((h.withMemory n).tally
        (·.release (b.size - 8))).log (.released (b.offset + 4) b.size)) := by
  have hBounds := hRest.shows.bounds hb
  obtain ⟨n, t, hFree, hSize, hLoses⟩ := hRest.free hb hAllocated hSigned
  refine ⟨n, t, hFree, hSize, hLoses, ?_⟩
  rw [release, hRest.blockOf hb, hAllocated, ok_bind, if_pos rfl]
  dsimp only
  rw [hRest.shows.sizeAt hb, ok_bind, edit_eq_ok hFree, ok_bind, minus_eq_ok (by omega), ok_bind]
  rfl

theorem release_eq {b : Block} (hRest : h.memory.AtRest s) (hb : b ∈ s.blocks)
    (hAllocated : b.allocated = true) :
    ∃ n t, h.memory.free b.offset = .ok n ∧ n.size = h.memory.size ∧ h.memory.Loses s b n t ∧
      h.release (b.offset + 4) = .ok (.ok (), ((h.withMemory n).tally
        (·.release (b.size - 8))).log (.released (b.offset + 4) b.size)) :=
  release_of_signed hRest hb hAllocated fun _ ha _ => hRest.signed ha

theorem release_atRest {b : Block} (hRest : h.memory.AtRest s) (hb : b ∈ s.blocks)
    (hAllocated : b.allocated = true) :
    ∃ h' t, h.release (b.offset + 4) = .ok (.ok (), h') ∧ h'.config = h.config ∧
      h'.memory.size = h.memory.size ∧ h.memory.Loses s b h'.memory t := by
  obtain ⟨n, t, _, hSize, hLoses, hRun⟩ := release_eq hRest hb hAllocated
  exact ⟨_, t, hRun, rfl, hSize, hLoses⟩

theorem writePayload_atRest {b : Block} (hRest : h.memory.AtRest s) (hb : b ∈ s.blocks)
    (hAllocated : b.allocated = true) (start : Nat) (data : ByteArray)
    (hFits : start + data.size ≤ b.size - 8) :
    ∃ n, h.writePayload (b.offset + 4) start data = .ok (.ok (), h.withMemory n) ∧ n.AtRest s ∧
      h.memory.AgreeOff n (fun j => b.offset + 4 + start ≤ j ∧
        j < b.offset + 4 + start + data.size) ∧
      ∀ j, (hj : j < data.size) → n.byte (b.offset + 4 + start + j) = data[j] := by
  obtain ⟨n, hWrite, hAgree, hBytes⟩ :=
    writePayload_of_owns (hRest.owns hb hAllocated) start data hFits
  exact ⟨n, hWrite, hRest.refill hb hAllocated (hAgree.mono (by omega)), hAgree, hBytes⟩

end Release

section Reallocation

variable {h : Heap S} {s : Shape}

/-- What a reallocation that is done leaves, by its pointer. -/
inductive Reallocated (m : Memory) (s : Shape) (size : Nat) (n : Memory) :
    Option Nat → Option Nat → Prop where
  | none (hSame : n = m) : Reallocated m s size n none none
  | gained {b : Block} {t : Shape} (hRoom : size + 32 ≤ b.size) (hGains : m.Gains s b n t) :
      Reallocated m s size n none (some (b.offset + 4))
  | lost {b : Block} {t : Shape} (hZero : size = 0) (hb : b ∈ s.blocks) (hAllocated : b.allocated = true)
      (hLoses : m.Loses s b n t) : Reallocated m s size n (some (b.offset + 4)) none
  | moved {b c : Block} {t : Shape} (hb : b ∈ s.blocks) (hAllocated : b.allocated = true)
      (hRoom : size + 32 ≤ c.size) (hMoves : m.Moves s b c (min size (b.size - 8)) n t) :
      Reallocated m s size n (some (b.offset + 4)) (some (c.offset + 4))

theorem move_atRest {b c : Block} {t : Shape} {m : Memory} (hb : b ∈ s.blocks)
    (hAllocated : b.allocated = true) (hGains : m.Gains s c h.memory t) (copied : Nat)
    (hSource : copied + 8 ≤ b.size) (hTarget : copied + 8 ≤ c.size) :
    ∃ n h' u, h.memory.move (b.offset + 4) (c.offset + 4) copied = .ok n ∧
      (h.withMemory n).release (b.offset + 4) = .ok (.ok (), h') ∧ h'.config = h.config ∧
      m.Moves s b c copied h'.memory u := by
  have hC : c ∈ t.blocks := (hGains.mem_iff c hGains.allocated).mpr (Or.inl rfl)
  have hB : b ∈ t.blocks := (hGains.mem_iff b hAllocated).mpr (Or.inr hb)
  have hBoundsC := hGains.atRest.shows.bounds hC
  have hBoundsB := hGains.atRest.shows.bounds hB
  obtain ⟨n, hMove, hAgree, hCopy⟩ := Memory.move_spec (m := h.memory) (b.offset + 4)
    (c.offset + 4) copied (by omega) (by omega)
  have hGains' := hGains.refill (hAgree.mono (by omega))
  obtain ⟨h', u, hRelease, hConfig, _, hLoses⟩ :=
    release_atRest (h := h.withMemory n) hGains'.atRest hB hAllocated
  refine ⟨n, h', u, hMove, hRelease, hConfig, hGains'.moves hLoses hb hAllocated hTarget ?_⟩
  intro j hj
  rw [hCopy j hj]
  exact hGains.keeps b hb hAllocated _ (by omega) (by omega)

section Live

variable [Supply S] {b : Block} {size : Nat}

theorem tryReallocate_of_refused {error : HeapError} {h' : Heap S} (hRest : h.memory.AtRest s)
    (hb : b ∈ s.blocks) (hAllocated : b.allocated = true) (hSize : size ≠ 0)
    (hRun : h.tryAllocate size = .ok (.error error, h')) :
    h.tryReallocate (some (b.offset + 4)) size = .ok (.error error, h') := by
  unfold tryReallocate
  dsimp only
  rw [if_neg hSize, usableSize_atRest hRest hb hAllocated, ok_bind]
  dsimp only
  rw [hRun, ok_bind]
  rfl

theorem tryReallocate_of_moved {new : Nat} {n : Memory} {h' h'' : Heap S}
    (hRest : h.memory.AtRest s) (hb : b ∈ s.blocks) (hAllocated : b.allocated = true)
    (hSize : size ≠ 0) (hRun : h.tryAllocate size = .ok (.ok new, h'))
    (hMove : h'.memory.move (b.offset + 4) new (min size (b.size - 8)) = .ok n)
    (hRelease : (h'.withMemory n).release (b.offset + 4) = .ok (.ok (), h'')) :
    h.tryReallocate (some (b.offset + 4)) size = .ok (.ok (some new),
      (h''.tally .reallocation).log (.moved (b.offset + 4) new (min size (b.size - 8)))) := by
  unfold tryReallocate
  dsimp only
  rw [if_neg hSize, usableSize_atRest hRest hb hAllocated, ok_bind]
  dsimp only
  rw [hRun, ok_bind]
  dsimp only
  rw [edit_eq_ok (h := h') (f := (·.move _ _ _)) hMove, ok_bind, hRelease, ok_bind]
  rfl

theorem tryReallocate_of_released {old : Nat} {h' : Heap S}
    (hRelease : h.release old = .ok (.ok (), h')) :
    h.tryReallocate (some old) 0 = .ok (.ok none, h') := by
  unfold tryReallocate
  dsimp only
  rw [if_pos rfl, hRelease, ok_bind]
  rfl

theorem tryReallocate_live (hRest : h.memory.AtRest s) (hConfig : h.config.Roomy)
    (hb : b ∈ s.blocks) (hAllocated : b.allocated = true) (size : Nat) :
    h.Ends (h.tryReallocate (some (b.offset + 4)) size) fun answer h' =>
      Reallocated h.memory s size h'.memory (some (b.offset + 4)) answer := by
  have hBounds := hRest.shows.bounds hb
  rcases eq_or_ne size 0 with rfl | hSize
  · obtain ⟨h', t, hRun, hConfig', _, hLoses⟩ := release_atRest hRest hb hAllocated
    exact .done none h' (tryReallocate_of_released hRun) hConfig' (.lost rfl hb hAllocated hLoses)
  rcases tryAllocate_atRest hRest hConfig size with ⟨error, h', hRun, hMemory, hConfig'⟩ |
      ⟨_, h', hRun, hConfig', c, t, rfl, hRoom, hGains⟩
  · exact .refused error h' (tryReallocate_of_refused hRest hb hAllocated hSize hRun) hMemory hConfig'
  · obtain ⟨n, h'', u, hMove, hRelease, hConfig'', hMoves⟩ := move_atRest hb hAllocated hGains
      (min size (b.size - 8)) (by omega) (by omega)
    exact .done (some (c.offset + 4)) _
      (tryReallocate_of_moved hRest hb hAllocated hSize hRun hMove hRelease)
      (hConfig''.trans hConfig') (.moved hb hAllocated hRoom hMoves)

end Live

theorem tryReallocate_of_rejects [Supply S] {p : Nat} (hReject : h.Rejects p) (size : Nat) :
    ∃ error h', h.tryReallocate (some p) size = .ok (.error error, h') ∧ h'.memory = h.memory ∧
      h'.config = h.config := by
  unfold tryReallocate
  dsimp only
  split
  · obtain ⟨error, hRun⟩ := release_of_rejects hReject
    rw [hRun, ok_bind]
    exact ⟨error, _, rfl, rfl, rfl⟩
  · obtain ⟨error, hRun⟩ := usableSize_of_rejects hReject
    rw [hRun, ok_bind]
    exact ⟨error, h, rfl, rfl, rfl⟩

theorem tryReallocate_atRest [Supply S] (hRest : h.memory.AtRest s) (hConfig : h.config.Roomy)
    {pointer : Option Nat} (size : Nat)
    (hPointer : ∀ p ∈ pointer, h.Rejects p ∨ ∃ b ∈ s.blocks, b.allocated = true ∧ p = b.offset + 4) :
    h.Ends (h.tryReallocate pointer size) fun answer h' =>
      Reallocated h.memory s size h'.memory pointer answer := by
  cases pointer with
  | none =>
    unfold tryReallocate
    dsimp only
    rcases tryAllocate_atRest hRest hConfig size with ⟨error, h', hRun, hMemory, hConfig'⟩ |
        ⟨_, h', hRun, hConfig', b, t, rfl, hRoom, hGains⟩
    · rw [hRun, ok_bind]
      cases error with
      | zeroSize => exact .done none h' rfl hConfig' (.none hMemory)
      | _ => exact .refused _ h' rfl hMemory hConfig'
    · rw [hRun, ok_bind]
      exact .done (some (b.offset + 4)) h' rfl hConfig' (.gained hRoom hGains)
  | some p =>
    rcases hPointer p rfl with hReject | ⟨b, hb, hAllocated, rfl⟩
    · obtain ⟨error, h', hRun, hMemory, hConfig'⟩ := tryReallocate_of_rejects hReject size
      exact .refused error h' hRun hMemory hConfig'
    · exact tryReallocate_live hRest hConfig hb hAllocated size

theorem tryReallocate_zero [Supply S] {b : Block} (hRest : h.memory.AtRest s) (hb : b ∈ s.blocks)
    (hAllocated : b.allocated = true) :
    ∃ h', h.tryReallocate (some (b.offset + 4)) 0 = .ok (.ok none, h') := by
  obtain ⟨h', t, hRun, _⟩ := release_atRest hRest hb hAllocated
  exact ⟨h', tryReallocate_of_released hRun⟩

end Reallocation

section Initialisation

variable [Supply S] {h h' : Heap S} {s : Shape}

/-- A heap whose space is unused before and after a growth is at rest if neither is a sliver. -/
theorem init_atRest (hPrepare : h.prepare = (.ok (), h')) (hConfig : h'.config.Roomy)
    (hSize : h'.currentSize = 144 ∨ 176 ≤ h'.currentSize) (hMod : h'.currentSize % 8 = 0)
    (hSmall : h'.currentSize ≤ 2 ^ 31) :
    ∃ answer h'' t, h.init = .ok (answer, h'') ∧ h''.config = h'.config ∧ h''.memory.AtRest t ∧
      ∀ b ∈ t.blocks, b.allocated = false := by
  have hMin := hConfig.chunk
  have hWhole : ∀ size, ∀ b ∈ (Shape.whole size).blocks, b.allocated = false := by
    intro size b hb
    rw [List.mem_singleton.mp hb]
  rcases init_of_prepared hPrepare (by omega) hSmall hMod (by omega) (by omega) hConfig.chunk_mod
    hConfig.word (by omega) with ⟨error, h'', hRun, hConfig', hShows⟩ | ⟨h'', hRun, hConfig', hShows⟩
  · refine ⟨.error error, h'', _, hRun, hConfig', ⟨hShows, ?_⟩, ?_⟩
    · exact Shape.settled_unused (by omega) (by omega)
    · unfold Shape.unused
      split
      · exact hWhole _
      · exact fun b hb => absurd hb List.not_mem_nil
  · refine ⟨.ok (), h'', _, hRun, hConfig', ⟨hShows, Shape.settled_whole (by omega) ?_⟩, hWhole _⟩
    have hBounds := hShows.bounds List.mem_cons_self
    have hLe := hShows.size_le
    dsimp only at hBounds
    omega

end Initialisation

end Heap

end TaggedHeap
