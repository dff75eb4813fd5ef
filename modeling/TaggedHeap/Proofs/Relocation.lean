import TaggedHeap.Proofs.Guarantees
import TaggedHeap.Proofs.Views

/-! # Where a payload moves

A reallocation moves a payload to where an allocation of the new size would be. The new payload
starts with the bytes of the old one, as far as both reach, the old pointer is that of no allocated
block any more, and nothing else that is live can tell.
-/

namespace TaggedHeap

namespace Heap

variable {S : Type}

/-- The pointer is that of an allocated block with a payload of these bytes. -/
structure Contains (h : Heap S) (p : Nat) (data : ByteArray) : Prop where
  block : ∃ b ∈ h.blocks, b.allocated = true ∧ p = b.offset + 4
  usable : h.usableSize p = .ok (.ok data.size)
  payload : h.payload p = .ok (.ok data)

theorem contains_atRest {h : Heap S} {s : Shape} {b : Block} (hRest : h.memory.AtRest s)
    (hb : b ∈ s.blocks) (hAllocated : b.allocated = true) :
    ∃ data, h.Contains (b.offset + 4) data ∧ data.size = b.size - 8 ∧
      ∀ j, (hj : j < data.size) → data[j] = h.memory.byte (b.offset + 4 + j) := by
  obtain ⟨data, hRun, hSize, hBytes⟩ := payload_atRest hRest hb hAllocated
  refine ⟨data, ⟨⟨b, ?_, hAllocated, rfl⟩, ?_, hRun⟩, hSize, hBytes⟩
  · rwa [blocks, hRest.shows.blocks]
  · rw [usableSize_atRest hRest hb hAllocated, hSize]

end Heap

namespace Session

variable {S : Type} {s : Session S} {t u : Shape} {b c : Block} {g : Grant} {h' : Heap S} {size : Nat}

/-- The payload behind a live pointer is behind the pointer `new` from now on. -/
structure Relocates (s : Session S) (g : Grant) (size new : Nat) (h' : Heap S) : Prop where
  ne : new ≠ g.pointer
  copied : ∃ before after, s.heap.Contains g.pointer before ∧ before.size = g.usable ∧
    h'.Contains new after ∧ size ≤ after.size ∧
    after.extract 0 (min size g.usable) = before.extract 0 (min size g.usable)
  lapsed : ∀ b ∈ h'.blocks, b.allocated = true → g.pointer ≠ b.offset + 4
  others : ∀ f ∈ s.live, f.pointer ≠ g.pointer → ∃ data,
    s.heap.Contains f.pointer data ∧ data.size = f.usable ∧ h'.Contains f.pointer data

theorem Steady.relocates (hSteady : s.Steady t) (hb : b ∈ t.blocks)
    (hAllocated : b.allocated = true) (hHolds : g.Holds s.heap.memory b) (hRoom : size + 32 ≤ c.size)
    (hMoves : s.heap.memory.Moves t b c (min size (b.size - 8)) h'.memory u) :
    s.Relocates g size (c.offset + 4) h' := by
  have hRest := hSteady.atRest
  have hRest' := hMoves.atRest
  have hPointer := hHolds.pointer
  have hUsable := hHolds.usable
  have hFresh := hMoves.fresh b hb hAllocated
  have hc : c ∈ u.blocks := (hMoves.mem_iff c hMoves.allocated).mpr (Or.inl rfl)
  refine ⟨by omega, ?_, ?_, ?_⟩
  · obtain ⟨before, hBefore, hSize, hBytes⟩ := Heap.contains_atRest hRest hb hAllocated
    obtain ⟨after, hAfter, hSize', hBytes'⟩ := Heap.contains_atRest hRest' hc hMoves.allocated
    rw [← hPointer] at hBefore
    refine ⟨before, after, hBefore, by omega, hAfter, by omega, ?_⟩
    refine ByteArray.ext_getElem ?_ fun j hj hj' => ?_
    · simp only [ByteArray.size_extract]
      omega
    · simp only [ByteArray.size_extract] at hj hj'
      simp only [ByteArray.getElem_extract, Nat.zero_add]
      rw [hBytes' j (by omega), hBytes j (by omega), hMoves.copy j (by omega)]
  · intro d hd hAllocatedD hEq
    rw [Heap.blocks, hRest'.shows.blocks] at hd
    rcases (hMoves.mem_iff d hAllocatedD).mp hd with rfl | ⟨hNe, hOld⟩
    · omega
    · exact hNe (hRest.shows.tiling.eq_of_offset hOld hb (by omega))
  · intro f hf hOther
    obtain ⟨d, hd, hAllocatedD, hHoldsD⟩ := hSteady.grant f hf
    have hPointerD := hHoldsD.pointer
    have hUsableD := hHoldsD.usable
    have hNe : d ≠ b := by
      rintro rfl
      exact hOther (hPointerD.trans hPointer.symm)
    have hd' : d ∈ u.blocks := (hMoves.mem_iff d hAllocatedD).mpr (Or.inr ⟨hNe, hd⟩)
    obtain ⟨data, hData, hSize, _⟩ := Heap.contains_atRest hRest hd hAllocatedD
    obtain ⟨data', hData', _⟩ := Heap.contains_atRest hRest' hd' hAllocatedD
    have hSame := Heap.payload_of_keeps hRest hRest' hd hd' hAllocatedD
      (hMoves.keeps d hd hAllocatedD hNe)
    rw [hData.payload, hData'.payload] at hSame
    cases hSame
    rw [hPointerD]
    exact ⟨data, hData, by omega, hData'⟩

/-- Where an allocation succeeds, so does a reallocation of any live pointer, to the same place. -/
theorem reaches_relocates [Supply S] {supply : S} {config : Config} {h : Heap S}
    (hValid : config.validate = .ok ()) (hChunk : 32 ≤ config.chunkSize)
    (hWord : config.chunkSize < 2 ^ 64)
    (hBuild : Heap.ofArena (.fresh supply) config = .ok (.ok h)) (hReach : Reaches ⟨h, []⟩ s)
    (hg : g ∈ s.live) (hSize : 0 < size) {new : Nat} {h₁ : Heap S}
    (hAllocate : s.heap.tryAllocate size = .ok (.ok new, h₁)) :
    ∃ h', s.heap.tryReallocate (some g.pointer) size = .ok (.ok (some new), h') ∧
      s.Relocates g size new h' := by
  obtain ⟨t₀, hStart⟩ := steady_of_built ⟨hValid, hChunk, hWord⟩ hBuild
  obtain ⟨t, hSteady⟩ := hStart.reaches hReach
  obtain ⟨b, hb, hAllocated, hHolds⟩ := hSteady.grant g hg
  have hBounds := hSteady.atRest.shows.bounds hb
  rcases Heap.tryAllocate_atRest hSteady.atRest hSteady.config size with
    ⟨_, _, hRefused, _⟩ | ⟨_, _, hRun, _, c, u, rfl, hRoom, hGains⟩
  · rw [hAllocate] at hRefused
    cases hRefused
  rw [hAllocate] at hRun
  cases hRun
  obtain ⟨n, h'', v, hMove, hRelease, _, hMoves⟩ := Heap.move_atRest hb hAllocated hGains
    (min size (b.size - 8)) (by omega) (by omega)
  rw [hHolds.pointer]
  exact ⟨_, Heap.tryReallocate_of_moved hSteady.atRest hb hAllocated (Nat.ne_of_gt hSize) hAllocate
    hMove hRelease, hSteady.relocates hb hAllocated hHolds hRoom hMoves⟩

theorem reaches_relocates_pair : ∃ (s : Session Cap) (g : Grant) (h' : Heap Cap),
    s.live.map Grant.pointer = [184, 144] ∧ g.pointer = 144 ∧
      s.heap.tryReallocate (some 144) 30 = .ok (.ok (some 224), h') ∧
      s.Relocates g 30 224 h' := by
  have hPair : rehearse (⟨304⟩ : Cap) { chunkSize := 160 } [.allocate 8, .allocate 8]
      (fun s => s.live.map Grant.pointer == [184, 144] &&
        match s.heap.tryAllocate 30 with
        | .ok (answer, _) => answer == .ok 224
        | .error _ => false) = true := by
    decide +kernel
  obtain ⟨h, s, hBuild, hPermits, hRun, hCheck⟩ := exists_of_rehearse hPair
  rw [Bool.and_eq_true, beq_iff_eq] at hCheck
  obtain ⟨hPointers, hAnswer⟩ := hCheck
  obtain ⟨g, hg, hPointer⟩ := List.mem_map.mp
    (show 144 ∈ s.live.map Grant.pointer from hPointers ▸ List.mem_cons_of_mem 184 List.mem_cons_self)
  split at hAnswer
  · rename_i answer h₁ hAllocate
    obtain rfl := eq_of_beq hAnswer
    obtain ⟨h', hMove, hRelocates⟩ := reaches_relocates rfl (by decide) (by decide) hBuild
      (Reaches.start.run hPermits hRun) hg (by decide) hAllocate
    rw [hPointer] at hMove
    exact ⟨s, g, h', hPointers, hPointer, hMove, hRelocates⟩
  · cases hAnswer

end Session

end TaggedHeap
