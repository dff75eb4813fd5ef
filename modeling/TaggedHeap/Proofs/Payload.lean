import TaggedHeap.Heap.Payload
import TaggedHeap.Proofs.Live

/-! # Payloads of a heap at rest

Asking for the block behind a pointer never fails, and the payload of an allocated block leads to
that block. What is written between the tags of an allocated block concerns nothing but the bytes
that are written.
-/

namespace TaggedHeap.Memory

variable {m n : Memory} {s : Shape} {T : Tagging} {b : Block}

theorem blockOf_total (h : 4 ≤ m.size) (p : Nat) : ∃ answer, m.blockOf p = .ok answer := by
  have hSmall := m.size_lt_maxAddress
  rw [blockOf, minus_eq_ok h, ok_bind]
  split
  · exact ⟨_, rfl⟩
  · rename_i hRange
    dsimp only [Layout.firstBlock, Layout.alignment] at hRange
    have hWidth := m.size_tag_lt (p - 4)
    rw [minus_eq_ok (by omega), ok_bind, tagAt_eq_ok (by omega), ok_bind]
    split
    · exact ⟨_, rfl⟩
    · rw [plus_eq_ok (by omega), ok_bind]
      split
      · exact ⟨_, rfl⟩
      · split
        · exact ⟨_, rfl⟩
        · exact ⟨_, rfl⟩

/-- The payload of a block leads to it if it is allocated, and is known as free if it is free. -/
theorem AtRest.blockOf (h : m.AtRest s T) (hb : b ∈ s.blocks) :
    m.blockOf (b.offset + 4) =
      .ok (if b.allocated then .ok b.offset else .error .doubleFree) := by
  have hBounds := h.shows.bounds hb
  have hSmall := m.size_lt_maxAddress
  have hLarge := h.settled.large b hb
  have hSize := h.shows.size_tag hb
  rw [Memory.blockOf, minus_eq_ok (by omega), ok_bind,
    if_neg (by dsimp only [Layout.firstBlock, Layout.alignment]; omega), minus_eq_ok (by omega),
    ok_bind, Nat.add_sub_cancel, tagAt_eq_ok (by omega), ok_bind,
    if_neg (by dsimp only [Layout.minBlock]; omega), plus_eq_ok (by omega), ok_bind,
    if_neg (by omega), h.shows.isAllocated_tag hb]
  split
  · rfl
  · rfl

theorem AtRest.usableAt (h : m.AtRest s T) (hb : b ∈ s.blocks) :
    m.usableAt b.offset = .ok (b.size - 8) := by
  have hBounds := h.shows.bounds hb
  have hSize := h.shows.size_tag hb
  rw [usableAt_eq_ok (by omega) (by omega), hSize]

theorem AtRest.refill (h : m.AtRest s T) (hb : b ∈ s.blocks) (hAllocated : b.allocated = true)
    (hAgree : m.AgreeOff n fun j => b.offset + 4 ≤ j ∧ j + 4 < b.offset + b.size) :
    n.AtRest s T := by
  obtain ⟨bs, chains⟩ := s
  obtain ⟨pre, post, rfl⟩ := List.append_of_mem hb
  obtain ⟨hPre, hSize, hMod, hPost⟩ := h.shows.tiling.cut
  refine ⟨?_, h.settled⟩
  have hShows : m.Shows ⟨pre ++ [b] ++ post, chains⟩ T := by
    rw [← List.append_cons]
    exact h.shows
  rw [List.append_cons]
  apply hShows.replace hPre (Tiling.single hSize hMod) hPost (Tiling.single hSize hMod)
  · apply hAgree.mono
    omega
  · intro c hc
    rw [List.mem_singleton.mp hc, hAgree.word (by omega), hAgree.word (by omega)]
    exact h.shows.tags b hb
  · exact h.shows.outside_allocated hAllocated

/-- Filling a payload does not concern the other blocks. -/
theorem Shows.keeps_other {c : Block} (h : m.Shows s) (hb : b ∈ s.blocks) (hc : c ∈ s.blocks)
    (hNe : b ≠ c) (hAgree : m.AgreeOff n fun j => c.offset + 4 ≤ j ∧ j + 4 < c.offset + c.size) :
    m.Keeps n b := by
  intro j hLow hHigh
  apply hAgree.byte j
  rcases h.tiling.eq_or_apart hb hc with hEq | hApart
  · exact absurd hEq hNe
  · omega

theorem Gains.refill {p : Memory} {t : Shape} (h : m.Gains s b n t)
    (hAgree : n.AgreeOff p fun j => b.offset + 4 ≤ j ∧ j + 4 < b.offset + b.size) :
    m.Gains s b p t := by
  have hNew := (h.mem_iff b h.allocated).mpr (Or.inl rfl)
  refine { h with atRest := h.atRest.refill hNew h.allocated hAgree, keeps := ?_ }
  intro c hc hAllocated
  refine (h.keeps c hc hAllocated).trans (h.atRest.shows.keeps_other
    ((h.mem_iff c hAllocated).mpr (Or.inr hc)) hNew ?_ hAgree)
  exact fun hEq => h.fresh c hc hAllocated (congrArg Block.offset hEq)

theorem Moves.refill {p : Memory} {t : Shape} {c : Block} {copied : Nat}
    (h : m.Moves s b c copied n t)
    (hAgree : n.AgreeOff p fun j => c.offset + 4 ≤ j ∧ j + 4 < c.offset + c.size) :
    m.Moves s b c 0 p t := by
  have hNew := (h.mem_iff c h.allocated).mpr (Or.inl rfl)
  refine { h with
    atRest := h.atRest.refill hNew h.allocated hAgree
    keeps := ?_
    copy := fun j hj => absurd hj (Nat.not_lt_zero j) }
  intro d hd hAllocated hNe
  refine (h.keeps d hd hAllocated hNe).trans (h.atRest.shows.keeps_other
    ((h.mem_iff d hAllocated).mpr (Or.inr ⟨hNe, hd⟩)) hNew ?_ hAgree)
  exact fun hEq => h.fresh d hd hAllocated (congrArg Block.offset hEq)

theorem paint_spec (start count : Nat) (x : UInt8) (h : start + count ≤ m.size) :
    ∃ n, m.paint start count x = .ok n ∧
      m.AgreeOff n (fun j => start ≤ j ∧ j < start + count) ∧
      ∀ j < count, n.byte (start + j) = x := by
  refine ⟨_, paint_eq_ok h, ⟨size_setBytes m start count x, ?_⟩, ?_⟩
  · intro j hj
    rw [byte_setBytes h, if_neg hj]
  · intro j hj
    rw [byte_setBytes h, if_pos (by omega)]

theorem store_spec (start : Nat) (data : ByteArray) (h : start + data.size ≤ m.size) :
    ∃ n, m.store start data = .ok n ∧
      m.AgreeOff n (fun j => start ≤ j ∧ j < start + data.size) ∧
      ∀ j, (hj : j < data.size) → n.byte (start + j) = data[j] := by
  obtain ⟨n, hRun⟩ : ∃ n, m.store start data = .ok n := by
    obtain ⟨bytes, hSmall⟩ := m
    exact ⟨_, dif_pos h⟩
  refine ⟨n, hRun, ⟨size_store hRun, ?_⟩, ?_⟩
  · intro j hj
    rw [byte_store hRun, if_neg hj]
  · intro j hj
    rw [byte_store hRun, if_pos ⟨by omega, by omega⟩, Nat.add_sub_cancel_left,
      ByteArray.getElem_eq_getElem_data, Array.getElem?_eq_getElem hj]
    rfl

theorem move_spec (source target count : Nat) (hSource : source + count ≤ m.size)
    (hTarget : target + count ≤ m.size) :
    ∃ n, m.move source target count = .ok n ∧
      m.AgreeOff n (fun j => target ≤ j ∧ j < target + count) ∧
      ∀ j < count, n.byte (target + j) = m.byte (source + j) := by
  have hWidth : (m.bytes.extract source (source + count)).size = count := by
    rw [ByteArray.size_extract]
    have hSize : m.bytes.size = m.size := rfl
    omega
  obtain ⟨n, hRun, hAgree, hBytes⟩ := store_spec (m := m) target
    (m.bytes.extract source (source + count)) (by omega)
  rw [hWidth] at hAgree
  refine ⟨n, ?_, hAgree, ?_⟩
  · rw [move, load_eq_ok hSource, ok_bind, hRun]
  · intro j hj
    have hSize : m.bytes.size = m.size := rfl
    rw [hBytes j (by omega), byte_of_lt (by omega), ByteArray.getElem_extract]

end TaggedHeap.Memory
