import TaggedHeap.Proofs.Payload

/-! # Access through a pointer

What a pointer gives access to is read from the header in front of it, whatever that word is. The
tests that are made before are all that keeps the access inside the arena, so what is said here of
an owned payload holds of any bytes whatever.
-/

namespace TaggedHeap

namespace Memory

variable {m : Memory} {s : Shape} {b : Block} {block size p : Nat}

/-- A header in front of a payload passes all tests, and so the block is taken for an allocated one
of the size that it tells. -/
structure Owns (m : Memory) (block size : Nat) : Prop where
  blockOf : m.blockOf (block + 4) = .ok (.ok block)
  sized : (m.tag block).size = size
  aligned : (block + 4) % 8 = 0
  low : 140 ≤ block
  large : 32 ≤ size
  inside : block + size + 4 ≤ m.size

theorem owns_of_blockOf (h : m.blockOf p = .ok (.ok block)) :
    p = block + 4 ∧ m.Owns block (m.tag block).size := by
  have hOwner := h
  rw [Memory.blockOf, bind_eq_ok_iff] at h
  obtain ⟨epilogue, hEpilogue, h⟩ := h
  obtain ⟨hSize, rfl⟩ := minus_eq_ok_iff.mp hEpilogue
  split at h
  · cases h
  rename_i hRange
  dsimp only [Layout.firstBlock, Layout.alignment] at hRange
  rw [minus_eq_ok (by omega), ok_bind, tagAt_eq_ok (by omega), ok_bind] at h
  split at h
  · cases h
  rename_i hLarge
  dsimp only [Layout.minBlock] at hLarge
  rw [bind_eq_ok_iff] at h
  obtain ⟨stop, hStop, h⟩ := h
  obtain ⟨_, rfl⟩ := plus_eq_ok_iff.mp hStop
  split at h
  · cases h
  rename_i hInside
  split at h
  · cases h
    have hPointer : p = p - 4 + 4 := by omega
    rw [hPointer] at hOwner
    exact ⟨hPointer, hOwner, rfl, by omega, by omega, by omega, by omega⟩
  · cases h

theorem AtRest.owns {T : Tagging} (h : m.AtRest s T) (hb : b ∈ s.blocks) (hAllocated : b.allocated = true) :
    m.Owns b.offset b.size := by
  have hBounds := h.shows.bounds hb
  refine ⟨?_, h.shows.size_tag hb, by omega, by omega, h.settled.large b hb, by omega⟩
  rw [h.blockOf hb, hAllocated, if_pos rfl]

/-- Outside of where payloads may be, and between two multiples of the alignment, there is no
payload. -/
theorem blockOf_of_outside (hSize : 4 ≤ m.size) (h : p < 144 ∨ m.size ≤ p + 4 ∨ p % 8 ≠ 0) :
    m.blockOf p = .ok (.error .invalidPointer) := by
  rw [blockOf, minus_eq_ok hSize, ok_bind,
    if_pos (by dsimp only [Layout.firstBlock, Layout.alignment]; omega)]
  rfl

end Memory

namespace Heap

variable {S : Type} {h : Heap S} {block size : Nat}

theorem usableSize_of_owns (hOwns : h.memory.Owns block size) :
    h.usableSize (block + 4) = .ok (.ok (size - 8)) := by
  have hSize := hOwns.sized
  have hLarge := hOwns.large
  have hInside := hOwns.inside
  rw [usableSize, hOwns.blockOf, ok_bind]
  dsimp only
  rw [Memory.usableAt_eq_ok (by omega) (by omega), hSize, ok_bind]
  rfl

theorem payload_of_owns (hOwns : h.memory.Owns block size) :
    ∃ data, h.payload (block + 4) = .ok (.ok data) ∧ data.size = size - 8 ∧
      ∀ j, (hj : j < data.size) → data[j] = h.memory.byte (block + 4 + j) := by
  have hLarge := hOwns.large
  have hInside := hOwns.inside
  have hSize : h.memory.bytes.size = h.memory.size := rfl
  refine ⟨h.memory.bytes.extract (block + 4) (block + 4 + (size - 8)), ?_, ?_, ?_⟩
  · rw [payload, usableSize_of_owns hOwns, ok_bind]
    dsimp only
    rw [Memory.load_eq_ok (by omega), ok_bind]
    rfl
  · rw [ByteArray.size_extract]
    omega
  · intro j hj
    rw [ByteArray.size_extract] at hj
    rw [ByteArray.getElem_extract, Memory.byte_of_lt (by omega)]

theorem payloadHolds_of_owns {count : Nat} {x : UInt8} (hOwns : h.memory.Owns block size)
    (hFits : count ≤ size - 8) (hBytes : ∀ j < count, h.memory.byte (block + 4 + j) = x) :
    h.payloadHolds (block + 4) count x = .ok (.ok true) := by
  have hHolds : h.memory.holds (block + 4) count x = true := by
    refine Memory.holds_iff.mpr fun j hLow hHigh => ?_
    rw [← Nat.add_sub_of_le hLow, hBytes (j - (block + 4)) (by omega)]
  rw [payloadHolds, usableSize_of_owns hOwns, ok_bind]
  dsimp only
  rw [ensure_eq_ok hFits, ok_bind, hHolds]
  rfl

theorem fillPayload_of_owns (hOwns : h.memory.Owns block size) (count : Nat) (x : UInt8)
    (hFits : count ≤ size - 8) :
    ∃ n, h.fillPayload (block + 4) count x = .ok (.ok (), h.withMemory n) ∧
      h.memory.AgreeOff n (fun j => block + 4 ≤ j ∧ j < block + 4 + count) ∧
      ∀ j < count, n.byte (block + 4 + j) = x := by
  have hLarge := hOwns.large
  have hInside := hOwns.inside
  obtain ⟨n, hPaint, hAgree, hBytes⟩ := Memory.paint_spec (m := h.memory) (block + 4) count x
    (by omega)
  refine ⟨n, ?_, hAgree, hBytes⟩
  rw [fillPayload, usableSize_of_owns hOwns, ok_bind]
  dsimp only
  rw [ensure_eq_ok hFits, ok_bind, edit_eq_ok (f := (·.paint _ _ _)) hPaint, ok_bind]
  rfl

theorem writePayload_of_owns (hOwns : h.memory.Owns block size) (start : Nat) (data : ByteArray)
    (hFits : start + data.size ≤ size - 8) :
    ∃ n, h.writePayload (block + 4) start data = .ok (.ok (), h.withMemory n) ∧
      h.memory.AgreeOff n (fun j => block + 4 + start ≤ j ∧ j < block + 4 + start + data.size) ∧
      ∀ j, (hj : j < data.size) → n.byte (block + 4 + start + j) = data[j] := by
  have hLarge := hOwns.large
  have hInside := hOwns.inside
  obtain ⟨n, hStore, hAgree, hBytes⟩ := Memory.store_spec (m := h.memory) (block + 4 + start) data
    (by omega)
  refine ⟨n, ?_, hAgree, hBytes⟩
  rw [writePayload, usableSize_of_owns hOwns, ok_bind]
  dsimp only
  rw [ensure_eq_ok hFits, ok_bind, edit_eq_ok hStore, ok_bind]
  rfl

end Heap

end TaggedHeap
