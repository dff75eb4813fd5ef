import TaggedHeap.Proofs.Merge

/-! # Settled shapes

Between two operations every block is large enough to be split off, free blocks are in their
buckets, and none lies next to another. Merging restores this around a block that has become free,
and does not concern the allocated blocks.
-/

namespace TaggedHeap

/-- Of two neighbours one is allocated. -/
def Fenced (bs : List Block) : Prop :=
  bs.IsChain fun a b => a.allocated = true ∨ b.allocated = true

/-- The neighbours of a free block are allocated. -/
theorem Fenced.beside {pre post : List Block} {b : Block} (h : Fenced (pre ++ b :: post))
    (hFree : b.allocated = false) :
    (∀ p ∈ pre.getLast?, p.allocated = true) ∧ ∀ q ∈ post.head?, q.allocated = true := by
  obtain ⟨_, hRow, hEnds⟩ := List.isChain_append.mp h
  constructor
  · intro p hp
    refine (hEnds p hp b rfl).resolve_right ?_
    rw [hFree]
    exact Bool.false_ne_true
  · intro q hq
    refine ((List.isChain_cons.mp hRow).1 q hq).resolve_left ?_
    rw [hFree]
    exact Bool.false_ne_true

structure Shape.Settled (s : Shape) : Prop where
  large : ∀ b ∈ s.blocks, 32 ≤ b.size
  fenced : Fenced s.blocks
  complete : ∀ b ∈ s.blocks, b.allocated = false → ∃ k, b.offset ∈ s.chains k

/-- A block in a row is the one that has been put there, or has been there before. -/
theorem mem_row_cases {pre post : List Block} {b c : Block} (d : Block) (h : c ∈ pre ++ b :: post) :
    c = b ∨ c ∈ pre ++ d :: post := by
  rcases List.mem_append.mp h with hPre | hRest
  · exact Or.inr (List.mem_append_left (d :: post) hPre)
  · exact (List.mem_cons.mp hRest).imp_right fun hPost =>
      List.mem_append_right pre (List.mem_cons_of_mem d hPost)

theorem Shape.Settled.large_retag {pre post : List Block} {b : Block} {chains : Chains}
    (h : Shape.Settled ⟨pre ++ b :: post, chains⟩) (allocated : Bool) :
    ∀ c ∈ pre ++ ⟨b.offset, b.size, allocated⟩ :: post, 32 ≤ c.size := by
  intro c hc
  rcases mem_row_cases b hc with rfl | hOld
  · exact h.large b (List.mem_append_right pre List.mem_cons_self)
  · exact h.large c hOld

section Absorption

variable {pre post : List Block} {b c : Block}

theorem fenced_absorbBefore (h : Fenced pre) :
    Fenced (absorbBefore pre b).1 ∧ ∀ p ∈ (absorbBefore pre b).1.getLast?, p.allocated = true := by
  rcases last_cases pre with hLast | ⟨l, p, rfl, hFree⟩
  · rw [absorbBefore_of_allocated hLast]
    exact ⟨h, hLast⟩
  · rw [absorbBefore_concat hFree]
    obtain ⟨hRow, _, hEnds⟩ := List.isChain_append.mp h
    refine ⟨hRow, fun q hq => ?_⟩
    refine (hEnds q hq p rfl).resolve_right ?_
    rw [hFree]
    exact Bool.false_ne_true

theorem fenced_absorbAfter (h : Fenced post) :
    Fenced (absorbAfter b post).2 ∧ ∀ n ∈ (absorbAfter b post).2.head?, n.allocated = true := by
  rcases first_cases post with hFirst | ⟨n, l, rfl, hFree⟩
  · rw [absorbAfter_of_allocated hFirst]
    exact ⟨h, hFirst⟩
  · rw [absorbAfter_cons hFree]
    obtain ⟨hEnds, hRow⟩ := List.isChain_cons.mp h
    refine ⟨hRow, fun q hq => ?_⟩
    refine (hEnds q hq).resolve_left ?_
    rw [hFree]
    exact Bool.false_ne_true

theorem le_absorbed : b.size ≤ (absorbed pre b post).size := by
  rcases last_cases pre with hLast | ⟨l, p, rfl, hFree⟩ <;>
    rcases first_cases post with hFirst | ⟨n, r, rfl, hFree'⟩
  · rw [absorbed, absorbBefore_of_allocated hLast, absorbAfter_of_allocated hFirst]
  · rw [absorbed, absorbBefore_of_allocated hLast, absorbAfter_cons hFree']
    exact Nat.le_add_right b.size n.size
  · rw [absorbed, absorbBefore_concat hFree, absorbAfter_of_allocated hFirst]
    exact Nat.le_add_left b.size p.size
  · rw [absorbed, absorbBefore_concat hFree, absorbAfter_cons hFree']
    dsimp only
    omega

theorem absorbed_free (h : b.allocated = false) : (absorbed pre b post).allocated = false := by
  rcases last_cases pre with hLast | ⟨l, p, rfl, hFree⟩ <;>
    rcases first_cases post with hFirst | ⟨n, r, rfl, hFree'⟩
  · rwa [absorbed, absorbBefore_of_allocated hLast, absorbAfter_of_allocated hFirst]
  · rw [absorbed, absorbBefore_of_allocated hLast, absorbAfter_cons hFree']
  · rw [absorbed, absorbBefore_concat hFree, absorbAfter_of_allocated hFirst]
  · rw [absorbed, absorbBefore_concat hFree, absorbAfter_cons hFree']

theorem mem_absorbBefore (h : c ∈ (absorbBefore pre b).1) : c ∈ pre := by
  rcases last_cases pre with hLast | ⟨l, p, rfl, hFree⟩
  · rwa [absorbBefore_of_allocated hLast] at h
  · rw [absorbBefore_concat hFree] at h
    exact List.mem_append_left [p] h

theorem mem_absorbAfter (h : c ∈ (absorbAfter b post).2) : c ∈ post := by
  rcases first_cases post with hFirst | ⟨n, r, rfl, hFree⟩
  · rwa [absorbAfter_of_allocated hFirst] at h
  · rw [absorbAfter_cons hFree] at h
    exact List.mem_cons_of_mem n h

theorem mem_settle {chains : Chains} (h : c ∈ (Shape.settle pre b post chains).blocks) :
    c = absorbed pre b post ∨ c ∈ pre ∨ c ∈ post := by
  rcases List.mem_append.mp h with hPre | hRest
  · exact Or.inr (Or.inl (mem_absorbBefore hPre))
  · rcases List.mem_cons.mp hRest with hEq | hPost
    · exact Or.inl hEq
    · exact Or.inr (Or.inr (mem_absorbAfter hPost))

theorem mem_settle_iff {chains : Chains} (hFree : b.allocated = false) (hc : c.allocated = true) :
    c ∈ (Shape.settle pre b post chains).blocks ↔ c ∈ pre ∨ c ∈ post := by
  have hNe : ∀ d : Block, d.allocated = false → c ≠ d := by
    rintro d hd rfl
    exact Bool.false_ne_true (hd.symm.trans hc)
  constructor
  · intro h
    exact (mem_settle h).resolve_left (hNe _ (absorbed_free hFree))
  · rintro (hPre | hPost)
    · apply List.mem_append_left
      rcases last_cases pre with hLast | ⟨l, p, rfl, hp⟩
      · rwa [absorbBefore_of_allocated hLast]
      · rw [absorbBefore_concat hp]
        rcases List.mem_append.mp hPre with hIn | hIn
        · exact hIn
        · exact absurd (List.mem_singleton.mp hIn) (hNe p hp)
    · apply List.mem_append_right
      apply List.mem_cons_of_mem
      rcases first_cases post with hFirst | ⟨n, r, rfl, hn⟩
      · rwa [absorbAfter_of_allocated hFirst]
      · rw [absorbAfter_cons hn]
        exact (List.mem_cons.mp hPost).resolve_left (hNe n hn)

end Absorption

namespace Memory.Shows

variable {m n : Memory} {T : Tagging} {pre post : List Block} {chains : Chains} {b : Block}

/-- What merging leaves is settled if everything but the block was. -/
theorem settled_settle (h : n.Shows (Shape.settle pre b post chains) T)
    (hLarge : ∀ c ∈ pre ++ b :: post, 32 ≤ c.size) (hPre : Fenced pre) (hPost : Fenced post)
    (hComplete : ∀ c, c ∈ pre ∨ c ∈ post → c.allocated = false → ∃ k, c.offset ∈ chains k) :
    (Shape.settle pre b post chains).Settled := by
  have hMem : absorbed pre b post ∈ (Shape.settle pre b post chains).blocks :=
    List.mem_append_right _ List.mem_cons_self
  refine ⟨?_, ?_, ?_⟩
  · intro c hc
    rcases mem_settle hc with rfl | hOld | hOld
    · exact le_trans (hLarge b (List.mem_append_right pre List.mem_cons_self)) le_absorbed
    · exact hLarge c (List.mem_append_left (b :: post) hOld)
    · exact hLarge c (List.mem_append_right pre (List.mem_cons_of_mem b hOld))
  · obtain ⟨hBefore, hLast⟩ := fenced_absorbBefore (b := b) hPre
    obtain ⟨hAfter, hFirst⟩ := fenced_absorbAfter (b := (absorbBefore pre b).2) hPost
    refine List.isChain_append.mpr ⟨hBefore, List.isChain_cons.mpr ⟨?_, hAfter⟩, ?_⟩
    · exact fun q hq => Or.inr (hFirst q hq)
    · exact fun p hp q hq => Or.inl (hLast p hp)
  · intro c hc hFreeC
    rcases h.tiling.eq_or_apart hc hMem with rfl | hApart
    · obtain ⟨k, _, hBucket⟩ := h.bucketOf hMem
      exact ⟨k, Chains.mem_insert.mpr (Or.inl ⟨hBucket, rfl⟩)⟩
    · have hBounds := h.bounds hc
      obtain ⟨k, hk⟩ : ∃ k, c.offset ∈ chains k := by
        refine hComplete c ((mem_settle hc).resolve_left ?_) hFreeC
        rintro rfl
        omega
      exact ⟨k, Chains.mem_insert.mpr (Or.inr (Chains.mem_clear.mpr ⟨hk, by omega⟩))⟩

theorem outside_allocated (h : m.Shows ⟨pre ++ b :: post, chains⟩ T) (hAllocated : b.allocated = true)
    (k o : Nat) (ho : o ∈ chains k) : o < b.offset ∨ b.offset + b.size ≤ o := by
  have hMem : b ∈ pre ++ b :: post := List.mem_append_right pre List.mem_cons_self
  rcases h.outside hMem ho with rfl | hOff
  · rw [(h.mem_chain hMem ho).1] at hAllocated
    cases hAllocated
  · exact hOff

theorem retag (h : m.Shows ⟨pre ++ b :: post, chains⟩ T) (hAllocated : b.allocated = true)
    (allocated : Bool) :
    ∃ n, m.writeTags b.offset ⟨(Block.mk b.offset b.size allocated).word⟩ = .ok n ∧
      m.AgreeOff n (InTags b) ∧ n.Shows ⟨pre ++ ⟨b.offset, b.size, allocated⟩ :: post, chains⟩ T := by
  have hMem : b ∈ pre ++ b :: post := List.mem_append_right pre List.mem_cons_self
  obtain ⟨hPre, hSize, hMod, hPost⟩ := h.tiling.cut
  have hShows : m.Shows ⟨pre ++ [b] ++ post, chains⟩ T := by rwa [← List.append_cons]
  exact hShows.fuse (b := ⟨b.offset, b.size, allocated⟩) hPre (Tiling.single hSize hMod) hPost hSize
    (h.outside_allocated hAllocated)

/-- A block that is freed is tagged first, and then merged. -/
theorem free_exact (h : m.Shows ⟨pre ++ b :: post, chains⟩ T)
    (hSettled : Shape.Settled ⟨pre ++ b :: post, chains⟩) (hAllocated : b.allocated = true)
    (hSigned : ∀ p ∈ pre.getLast?, m.Signed p) :
    ∃ n₁ n, m.free b.offset = .ok n ∧ m.AgreeOff n₁ (InTags b) ∧
      n₁.Shows ⟨pre ++ ⟨b.offset, b.size, false⟩ :: post, chains⟩ T ∧
      n₁.AgreeOff n (Rewritten (pre ++ ⟨b.offset, b.size, false⟩ :: post) chains
        (absorbed pre ⟨b.offset, b.size, false⟩ post)) ∧
      n.Shows (Shape.settle pre ⟨b.offset, b.size, false⟩ post chains) T ∧
      (Shape.settle pre ⟨b.offset, b.size, false⟩ post chains).Settled := by
  have hMem : b ∈ pre ++ b :: post := List.mem_append_right pre List.mem_cons_self
  have hBounds := h.bounds hMem
  have hSmall := h.size_le
  obtain ⟨n₁, hWrite, hAgree₁, hShows₁⟩ := h.retag hAllocated false
  have hComplete : ∀ c, c ∈ pre ∨ c ∈ post → c.allocated = false → ∃ k, c.offset ∈ chains k := by
    intro c hc
    exact hSettled.complete c (List.mem_append.mpr (hc.imp_right (List.mem_cons_of_mem b)))
  have hLarge := hSettled.large_retag false
  -- The new tags are behind the footer of the block before.
  have hSigned₁ : ∀ p ∈ pre.getLast?, n₁.Signed p := by
    intro p hp hAllocatedP
    have hMemP : p ∈ pre := List.mem_of_getLast? hp
    have hBoundsP := h.tiling.cut.1.bounds hMemP
    rw [tag, hAgree₁.word (by simp only [InTags]; omega)]
    exact hSigned p hp hAllocatedP
  obtain ⟨n, hMerge, hAgree, hShows⟩ := hShows₁.coalesce_exact rfl
    (by
      intro k hk
      rw [(h.mem_chain hMem hk).1] at hAllocated
      cases hAllocated)
    hSigned₁
    (fun p hp => hComplete p (Or.inl (List.mem_of_getLast? hp)))
    (fun q hq => hComplete q (Or.inr (List.mem_of_mem_head? hq)))
    (by
      have hLe : b.size ≤ (absorbed pre ⟨b.offset, b.size, false⟩ post).size :=
        le_absorbed (b := ⟨b.offset, b.size, false⟩)
      have hLargeB := hSettled.large b hMem
      omega)
  obtain ⟨hPre, hRest, _⟩ := List.isChain_append.mp hSettled.fenced
  refine ⟨n₁, n, ?_, hAgree₁, hShows₁, hAgree, hShows, ?_⟩
  · rw [Memory.free, h.sizeAt hMem, ok_bind, Block.free_tag (b := ⟨b.offset, b.size, false⟩) rfl
      (by dsimp only; omega) (by dsimp only; omega), ok_bind, hWrite, ok_bind, hMerge, ok_bind]
    rfl
  · exact hShows.settled_settle hLarge hPre (List.isChain_cons.mp hRest).2 hComplete

theorem free (h : m.Shows ⟨pre ++ b :: post, chains⟩ T)
    (hSettled : Shape.Settled ⟨pre ++ b :: post, chains⟩) (hAllocated : b.allocated = true)
    (hSigned : ∀ p ∈ pre.getLast?, m.Signed p) :
    ∃ n, m.free b.offset = .ok n ∧
      m.AgreeOff n (Bookkeeping (pre ++ ⟨b.offset, b.size, false⟩ :: post)) ∧
      n.Shows (Shape.settle pre ⟨b.offset, b.size, false⟩ post chains) T ∧
      (Shape.settle pre ⟨b.offset, b.size, false⟩ post chains).Settled := by
  have hBounds := h.bounds (b := b) (List.mem_append_right pre List.mem_cons_self)
  obtain ⟨n₁, n, hRun, hAgree₁, hShows₁, hAgree, hShows, hSettled'⟩ :=
    h.free_exact hSettled hAllocated hSigned
  refine ⟨n, hRun, ?_, hShows, hSettled'⟩
  refine (hAgree₁.mono ?_).trans (hAgree.mono fun _ => Rewritten.bookkeeping hShows₁.listed)
  intro j hj
  simp only [InTags] at hj
  exact Or.inr ⟨⟨b.offset, b.size, false⟩, List.mem_append_right pre List.mem_cons_self, rfl,
    by dsimp only; omega, by dsimp only; omega, by dsimp only; omega⟩

end Memory.Shows

end TaggedHeap
