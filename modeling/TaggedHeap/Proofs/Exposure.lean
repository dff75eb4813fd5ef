import TaggedHeap.Proofs.Lapse
import TaggedHeap.Proofs.Refusal
import TaggedHeap.Proofs.Upkeep

/-! # What pointers expose

Any number may be tried as a pointer, and the bytes of the arena may be anything. Either the number
is rejected, or some bytes between the prologue and the epilogue can be read and overwritten. In a
heap in use these are the payloads of the allocated blocks, if a payload is asked for.
-/

namespace TaggedHeap

namespace Heap

variable {S : Type} {h : Heap S} {block size p : Nat}

/-- Behind the pointer so many bytes can be read and overwritten, none of them in the directory, in
the prologue or in the epilogue. -/
structure Exposes (h : Heap S) (p usable : Nat) : Prop where
  usableSize : h.usableSize p = .ok (.ok usable)
  payload : ∃ data, h.payload p = .ok (.ok data) ∧ data.size = usable ∧
    ∀ j, (hj : j < data.size) → data[j] = h.memory.byte (p + j)
  writePayload : ∀ start data, start + data.size ≤ usable →
    ∃ n, h.writePayload p start data = .ok (.ok (), h.withMemory n) ∧
      h.memory.AgreeOff n (fun j => p + start ≤ j ∧ j < p + start + data.size) ∧
      ∀ j, (hj : j < data.size) → n.byte (p + start + j) = data[j]
  fillPayload : ∀ count x, count ≤ usable →
    ∃ n, h.fillPayload p count x = .ok (.ok (), h.withMemory n) ∧
      h.memory.AgreeOff n (fun j => p ≤ j ∧ j < p + count) ∧ ∀ j < count, n.byte (p + j) = x
  large : 24 ≤ usable
  low : 144 ≤ p
  high : p + usable + 8 ≤ h.currentSize

theorem exposes_of_owns (hOwns : h.memory.Owns block size) : h.Exposes (block + 4) (size - 8) := by
  have hLow := hOwns.low
  have hLarge := hOwns.large
  have hInside := hOwns.inside
  have hSize : h.currentSize = h.memory.size := rfl
  exact ⟨usableSize_of_owns hOwns, payload_of_owns hOwns, writePayload_of_owns hOwns,
    fillPayload_of_owns hOwns, by omega, by omega, by omega⟩

variable [Supply S]

/-- A pointer leads nowhere, or to bytes that may be used. -/
inductive Guards (h : Heap S) (p : Nat) : Prop where
  | invalidPointer (hRejects : h.RejectsAs .invalidPointer p)
  | doubleFree (hRejects : h.RejectsAs .doubleFree p)
  | exposes (usable : Nat) (hExposes : h.Exposes p usable)

theorem guards_of_size (hSize : 4 ≤ h.currentSize) (p : Nat) : h.Guards p := by
  obtain ⟨answer, hBlock⟩ := Memory.blockOf_total hSize p
  cases answer with
  | error error =>
    rcases Memory.blockOf_error hBlock with rfl | rfl
    · exact .invalidPointer (rejectsAs_of_blockOf hBlock)
    · exact .doubleFree (rejectsAs_of_blockOf hBlock)
  | ok block =>
    obtain ⟨rfl, hOwns⟩ := Memory.owns_of_blockOf hBlock
    exact .exposes _ (exposes_of_owns hOwns)

/-- The payloads of the allocated blocks can be used, and those of the free ones are known as such.
A pointer that is misaligned or not between the sentinels is invalid. -/
structure Discerns (h : Heap S) : Prop where
  allocated : ∀ b ∈ h.blocks, b.allocated = true → h.Exposes (b.offset + 4) (b.size - 8)
  free : ∀ b ∈ h.blocks, b.allocated = false → h.RejectsAs .doubleFree (b.offset + 4)
  outside : ∀ p, p < 144 ∨ h.currentSize ≤ p + 4 ∨ p % 8 ≠ 0 → h.RejectsAs .invalidPointer p

theorem discerns_of_atRest {s : Shape} (hRest : h.memory.AtRest s) : h.Discerns := by
  have hBlocks : h.blocks = s.blocks := hRest.shows.blocks
  have hSize : 144 ≤ h.memory.size := hRest.shows.le_size
  constructor
  · intro b hb hAllocated
    exact exposes_of_owns (hRest.owns (hBlocks ▸ hb) hAllocated)
  · intro b hb hFree
    apply rejectsAs_of_blockOf
    rw [hRest.blockOf (hBlocks ▸ hb), hFree]
    rfl
  · intro p hOutside
    exact rejectsAs_of_blockOf (Memory.blockOf_of_outside (by omega) hOutside)

/-- No pointer leads out of bounds, whatever the bytes of the arena are; and in a heap in use each
pointer leads where it should. -/
theorem access_contained : (∀ h : Heap S, 144 ≤ h.currentSize → ∀ p, h.Guards p) ∧
    ∀ (supply : S) (config : Config) (h : Heap S) (s : Session S), config.validate = .ok () →
      32 ≤ config.chunkSize → config.chunkSize < 2 ^ 64 →
      ofArena (.fresh supply) config = .ok (.ok h) → Session.Reaches ⟨h, []⟩ s →
      s.heap.Discerns := by
  constructor
  · intro h hSize p
    exact guards_of_size (by omega) p
  · intro supply config h s hValid hChunk hWord hBuild hReach
    obtain ⟨t, hStart⟩ := Session.steady_of_built ⟨hValid, hChunk, hWord⟩ hBuild
    obtain ⟨u, hSteady⟩ := hStart.reaches hReach
    exact discerns_of_atRest hSteady.atRest

/-- A block whose payload looks like two blocks, one of them too long. -/
def overwritten : Heap Cap :=
  laid [81, 0, 33, 0, 4001, 0, 0, 0, 0, 33, 0, 0, 0, 0, 0, 0, 0, 0, 0, 81] (by decide)

theorem access_contained_overwritten : overwritten.Exposes 152 24 ∧
    overwritten.RejectsAs .invalidPointer 160 ∧ ∃ s : Session Cap,
      s.heap.Exposes 144 32 ∧ s.heap.RejectsAs .doubleFree 184 ∧
      s.heap.RejectsAs .invalidPointer 236 := by
  obtain ⟨hAny, hInUse⟩ := access_contained (S := Cap)
  have hSize : 144 ≤ overwritten.currentSize := by decide +kernel
  have hFirst : overwritten.usableSize 152 = .ok (.ok 24) := by decide +kernel
  have hSecond : overwritten.usableSize 160 = .ok (.error .invalidPointer) := by decide +kernel
  have hUsed : Session.rehearse (⟨240⟩ : Cap) { chunkSize := 96 } [.allocate 8] (fun s =>
      s.heap.blocks == [⟨140, 40, true⟩, ⟨180, 56, false⟩] && s.heap.currentSize == 240) = true := by
    decide +kernel
  refine ⟨?_, ?_, ?_⟩
  · cases hAny overwritten hSize 152 with
    | invalidPointer hRejects => cases hFirst.symm.trans hRejects.usableSize
    | doubleFree hRejects => cases hFirst.symm.trans hRejects.usableSize
    | exposes usable hExposes =>
      cases hFirst.symm.trans hExposes.usableSize
      exact hExposes
  · cases hAny overwritten hSize 160 with
    | invalidPointer hRejects => exact hRejects
    | doubleFree hRejects => cases hSecond.symm.trans hRejects.usableSize
    | exposes usable hExposes => cases hSecond.symm.trans hExposes.usableSize
  · obtain ⟨h, s, hBuild, hPermits, hRun, hCheck⟩ := Session.exists_of_rehearse hUsed
    rw [Bool.and_eq_true, beq_iff_eq, beq_iff_eq] at hCheck
    obtain ⟨hBlocks, hCurrent⟩ := hCheck
    obtain ⟨hAllocated, hFree, hOutside⟩ := hInUse _ _ h s rfl (by decide) (by decide) hBuild
      (Session.Reaches.start.run hPermits hRun)
    rw [hBlocks] at hAllocated hFree
    exact ⟨s, hAllocated ⟨140, 40, true⟩ List.mem_cons_self rfl,
      hFree ⟨180, 56, false⟩ (List.mem_cons_of_mem _ List.mem_cons_self) rfl,
      hOutside 236 (by omega)⟩

end Heap

end TaggedHeap
