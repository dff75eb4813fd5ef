import TaggedHeap.Proofs.Settled
import TaggedHeap.Space.Place

/-! # Placing in a shape

Placing a request turns the front of a free block, or all of it, into an allocated block. What the
other blocks hold is not touched, and a settled shape stays settled: the rest is split off only if
it makes a block, and the block after it is allocated because the whole was free.
-/

namespace TaggedHeap

/-- The allocated block that a request of `size` bytes makes of a free one. -/
def Block.taken (b : Block) (size : Nat) : Block where
  offset := b.offset
  size := if 32 ≤ b.size - size then size else b.size
  allocated := true

/-- What a request of `size` bytes leaves of a free block, if that is a block. -/
def Block.rest (b : Block) (size : Nat) : List Block :=
  if 32 ≤ b.size - size then [⟨b.offset + size, b.size - size, false⟩] else []

/-- The shape in which a free block has been used for a request of `size` bytes. -/
def Shape.carve (pre : List Block) (b : Block) (post : List Block) (chains : Chains) (size : Nat) :
    Shape where
  blocks := pre ++ b.taken size :: (b.rest size ++ post)
  chains := (b.rest size).foldl Chains.insert (chains.clear b.offset (b.offset + b.size))

namespace Block

variable {b c : Block} {size : Nat}

theorem taken_of_le (h : 32 ≤ b.size - size) : b.taken size = ⟨b.offset, size, true⟩ := by
  rw [taken, if_pos h]

theorem taken_of_lt (h : ¬ 32 ≤ b.size - size) : b.taken size = ⟨b.offset, b.size, true⟩ := by
  rw [taken, if_neg h]

theorem rest_of_le (h : 32 ≤ b.size - size) :
    b.rest size = [⟨b.offset + size, b.size - size, false⟩] := if_pos h

theorem rest_of_lt (h : ¬ 32 ≤ b.size - size) : b.rest size = [] := if_neg h

theorem le_taken (h : size ≤ b.size) : size ≤ (b.taken size).size := by
  simp only [taken]
  split
  · exact le_rfl
  · exact h

theorem mem_rest (h : c ∈ b.rest size) : c = ⟨b.offset + size, b.size - size, false⟩ ∧
    32 ≤ b.size - size := by
  unfold rest at h
  split at h
  · rename_i hLarge
    exact ⟨List.mem_singleton.mp h, hLarge⟩
  · cases h

end Block

section Carving

variable {pre post : List Block} {b c : Block} {chains : Chains} {size : Nat}

theorem mem_carve (h : c ∈ (Shape.carve pre b post chains size).blocks) :
    c = b.taken size ∨ c ∈ b.rest size ∨ c ∈ pre ++ b :: post := by
  rcases List.mem_append.mp h with hPre | hRow
  · exact Or.inr (Or.inr (List.mem_append_left (b :: post) hPre))
  · rcases List.mem_cons.mp hRow with hEq | hRow
    · exact Or.inl hEq
    · refine Or.inr ((List.mem_append.mp hRow).imp_right fun hPost => ?_)
      exact List.mem_append_right pre (List.mem_cons_of_mem b hPost)

theorem mem_carve_iff (hFree : b.allocated = false) (hc : c.allocated = true) :
    c ∈ (Shape.carve pre b post chains size).blocks ↔
      c = b.taken size ∨ c ∈ pre ++ b :: post := by
  have hRest : c ∉ b.rest size := by
    intro h
    rw [(Block.mem_rest h).1] at hc
    cases hc
  have hNe : c ≠ b := by
    rintro rfl
    exact Bool.false_ne_true (hFree.symm.trans hc)
  simp only [Shape.carve, List.mem_append, List.mem_cons, hRest, hNe, false_or]
  exact or_left_comm

theorem fenced_carve (h : Fenced (pre ++ b :: post)) (hFree : b.allocated = false) :
    Fenced (Shape.carve pre b post chains size).blocks := by
  obtain ⟨hPre, hRow, _⟩ := List.isChain_append.mp h
  obtain ⟨_, hPost⟩ := List.isChain_cons.mp hRow
  obtain ⟨_, hNext⟩ := h.beside hFree
  refine List.isChain_append.mpr ⟨hPre, List.isChain_cons.mpr ⟨fun _ _ => Or.inl rfl, ?_⟩, ?_⟩
  · unfold Block.rest
    split
    · exact List.isChain_cons.mpr ⟨fun c hc => Or.inr (hNext c hc), hPost⟩
    · exact hPost
  · intro p _ q hq
    rw [List.head?_cons, Option.mem_some_iff] at hq
    rw [← hq]
    exact Or.inr rfl

end Carving

namespace Memory.Shows

variable {m n : Memory} {T : Tagging} {pre post : List Block} {chains : Chains} {b : Block}
  {size : Nat}

theorem settled_carve (h : m.Shows ⟨pre ++ b :: post, chains⟩ T)
    (h' : n.Shows (Shape.carve pre b post chains size) T)
    (hSettled : Shape.Settled ⟨pre ++ b :: post, chains⟩) (hFree : b.allocated = false)
    (hFits : size ≤ b.size) (hMin : 32 ≤ size) :
    (Shape.carve pre b post chains size).Settled := by
  have hOld : b ∈ pre ++ b :: post := List.mem_append_right pre List.mem_cons_self
  have hNew : b.taken size ∈ (Shape.carve pre b post chains size).blocks :=
    List.mem_append_right pre List.mem_cons_self
  refine ⟨?_, fenced_carve hSettled.fenced hFree, ?_⟩
  · intro c hc
    rcases mem_carve hc with rfl | hRest | hPart
    · exact le_trans hMin (Block.le_taken hFits)
    · obtain ⟨rfl, hLarge⟩ := Block.mem_rest hRest
      exact hLarge
    · exact hSettled.large c hPart
  · intro c hc hFreeC
    rcases mem_carve hc with rfl | hRest | hPart
    · cases hFreeC
    · obtain ⟨rfl, hLarge⟩ := Block.mem_rest hRest
      obtain ⟨k, _, hBucket⟩ := h'.bucketOf hc
      refine ⟨k, ?_⟩
      rw [Shape.carve, Block.rest_of_le hLarge]
      exact Chains.mem_insert.mpr (Or.inl ⟨hBucket, rfl⟩)
    · obtain ⟨k, hk⟩ := hSettled.complete c hPart hFreeC
      have hOff : c.offset < b.offset ∨ b.offset + b.size ≤ c.offset := by
        rcases h.outside hOld hk with hEq | hOff
        · -- The block itself has given way to an allocated one.
          have hBounds := h'.bounds hc
          rcases h'.tiling.eq_or_apart hc hNew with rfl | hApart
          · cases hFreeC
          · have hOffset : (b.taken size).offset = b.offset := rfl
            have hBounds' := h'.bounds hNew
            omega
        · exact hOff
      have hKept := Chains.mem_clear.mpr ⟨hk, hOff⟩
      refine ⟨k, ?_⟩
      unfold Shape.carve Block.rest
      split
      · exact Chains.mem_insert.mpr (Or.inr hKept)
      · exact hKept

/-- Placing a request that leaves a block: the front of the block is taken, the rest enters its
bucket. -/
theorem place_front (h : m.Shows ⟨pre ++ b :: post, chains⟩ T)
    (hClear : ∀ k, ∀ o ∈ chains k, o < b.offset ∨ b.offset + b.size ≤ o)
    (hRest : 32 ≤ b.size - size) (hMin : 32 ≤ size) (hMod : size % 8 = 0) :
    ∃ n, (do
      let front ← Tag.allocated size
      let m ← m.writeTags b.offset front
      let next ← m.successor b.offset
      let back ← Tag.free (b.size - size)
      let m ← m.writeTags next back
      m.insertFree next) = .ok n ∧
      m.AgreeOff n (fun j => Linkage (pre ++ b :: post) j ∨ b.offset ≤ j ∧ j < b.offset + b.size) ∧
      n.Shows ⟨pre ++ ⟨b.offset, size, true⟩ :: ⟨b.offset + size, b.size - size, false⟩ :: post,
        chains.insert ⟨b.offset + size, b.size - size, false⟩⟩ T := by
  have hBounds := h.bounds (b := b) (List.mem_append_right pre List.mem_cons_self)
  have hSmall := h.size_le
  obtain ⟨m₁, m₂, hFront, hSuccessor, hBack, hAgree, hShows⟩ :=
    h.split (c := ⟨b.offset, size, true⟩) (d := ⟨b.offset + size, b.size - size, false⟩) rfl rfl
      (by dsimp only; omega) (by dsimp only; omega) hMod (by dsimp only; omega) hClear
  obtain ⟨n, hInsert, hAgree', hShows'⟩ := hShows.insertFree
    (b := ⟨b.offset + size, b.size - size, false⟩)
    (List.mem_append_right pre (List.mem_cons_of_mem _ List.mem_cons_self)) rfl
    (by dsimp only; omega) (by
      intro k ho
      have hOff := hClear k _ ho
      dsimp only at hOff
      omega)
  refine ⟨n, ?_, ?_, hShows'⟩
  · rw [Block.allocated_tag (b := ⟨b.offset, size, true⟩) rfl hMod (by dsimp only; omega), ok_bind,
      hFront, ok_bind, hSuccessor, ok_bind,
      Block.free_tag (b := ⟨b.offset + size, b.size - size, false⟩) rfl (by dsimp only; omega)
        (by dsimp only; omega), ok_bind, hBack, ok_bind]
    exact hInsert
  · apply (hAgree.mono _).trans (hAgree'.mono _)
    · exact fun j hj => Or.inr hj
    · intro j hj
      rcases hShows'.listed.linkage hj with hSlot | ⟨c, hc, hFreeC, hLargeC, hLow, hHigh⟩
      · exact Or.inl (Or.inl hSlot)
      · rcases List.mem_append.mp hc with hc | hc
        · exact Or.inl (Or.inr ⟨c, List.mem_append_left (b :: post) hc, hFreeC, hLargeC, hLow, hHigh⟩)
        rcases List.mem_cons.mp hc with rfl | hc
        · cases hFreeC
        rcases List.mem_cons.mp hc with rfl | hc
        · dsimp only at hLow hHigh
          omega
        · exact Or.inl (Or.inr ⟨c, List.mem_append_right pre (List.mem_cons_of_mem b hc), hFreeC,
            hLargeC, hLow, hHigh⟩)

/-- Placing a request that leaves less than a block: all of the block is taken. -/
theorem place_whole (h : m.Shows ⟨pre ++ b :: post, chains⟩ T)
    (hClear : ∀ k, ∀ o ∈ chains k, o < b.offset ∨ b.offset + b.size ≤ o) :
    ∃ n, (do
      let tag ← Tag.allocated b.size
      m.writeTags b.offset tag) = .ok n ∧
      m.AgreeOff n (fun j => Linkage (pre ++ b :: post) j ∨ b.offset ≤ j ∧ j < b.offset + b.size) ∧
      n.Shows ⟨pre ++ ⟨b.offset, b.size, true⟩ :: post, chains⟩ T := by
  have hBounds := h.bounds (b := b) (List.mem_append_right pre List.mem_cons_self)
  have hSmall := h.size_le
  obtain ⟨hPre, hSize, hMod, hPost⟩ := h.tiling.cut
  have hShows : m.Shows ⟨pre ++ [b] ++ post, chains⟩ T := by rwa [← List.append_cons]
  obtain ⟨n, hRun, hAgree, hShows'⟩ := hShows.fuse (b := ⟨b.offset, b.size, true⟩) hPre
    (Tiling.single hSize hMod) hPost hSize hClear
  refine ⟨n, ?_, ?_, hShows'⟩
  · rw [Block.allocated_tag (b := ⟨b.offset, b.size, true⟩) rfl hMod (by dsimp only; omega), ok_bind]
    exact hRun
  · apply hAgree.mono
    intro j hj
    simp only [InTags] at hj
    omega

theorem place (h : m.Shows ⟨pre ++ b :: post, chains⟩ T)
    (hSettled : Shape.Settled ⟨pre ++ b :: post, chains⟩) (hFree : b.allocated = false)
    (hFits : size ≤ b.size) (hMin : 32 ≤ size) (hMod : size % 8 = 0) :
    ∃ n, m.place b.offset size = .ok n ∧
      m.AgreeOff n (fun j => Linkage (pre ++ b :: post) j ∨ b.offset ≤ j ∧ j < b.offset + b.size) ∧
      n.Shows (Shape.carve pre b post chains size) T ∧
      (Shape.carve pre b post chains size).Settled := by
  have hMem : b ∈ pre ++ b :: post := List.mem_append_right pre List.mem_cons_self
  obtain ⟨k, hk⟩ := hSettled.complete b hMem hFree
  obtain ⟨m₁, hRemove, hAgree₁, hShows₁⟩ := h.removeFree hMem hk
  have hClear : ∀ k, ∀ o ∈ chains.clear b.offset (b.offset + b.size) k,
      o < b.offset ∨ b.offset + b.size ≤ o := fun k o ho => (Chains.mem_clear.mp ho).2
  have hCarved : ∃ n, m.place b.offset size = .ok n ∧
      m₁.AgreeOff n (fun j => Linkage (pre ++ b :: post) j ∨ b.offset ≤ j ∧ j < b.offset + b.size) ∧
      n.Shows (Shape.carve pre b post chains size) T := by
    rw [Memory.place, h.sizeAt hMem, ok_bind, minus_eq_ok hFits, ok_bind, hRemove, ok_bind]
    by_cases hLarge : 32 ≤ b.size - size
    · rw [if_pos hLarge, Shape.carve, Block.taken_of_le hLarge, Block.rest_of_le hLarge]
      exact hShows₁.place_front hClear hLarge hMin hMod
    · rw [if_neg hLarge, Shape.carve, Block.taken_of_lt hLarge, Block.rest_of_lt hLarge]
      exact hShows₁.place_whole hClear
  obtain ⟨n, hRun, hAgree, hShows⟩ := hCarved
  refine ⟨n, hRun, (hAgree₁.mono fun _ hj => Or.inl (h.listed.linkage hj)).trans hAgree, hShows, ?_⟩
  exact h.settled_carve hShows hSettled hFree hFits hMin

end Memory.Shows

end TaggedHeap
