import TaggedHeap.Proofs.Search

/-! # What the views show

A memory shows no more than one shape: that of the blocks and of the chains that the views read.
-/

namespace TaggedHeap.Memory

variable {m : Memory} {s t : Shape} {T : Tagging}

theorem blocksFrom_tiling {lo hi : Nat} {bs : List Block} (h : Tiling lo bs hi)
    (hTag : ∀ b ∈ bs, (m.tag b.offset).size = b.size ∧ (m.tag b.offset).isAllocated = b.allocated) :
    m.blocksFrom hi lo = bs := by
  induction bs generalizing lo with
  | nil => exact blocksFrom_of_le (le_of_eq (Eq.symm h))
  | cons b bs ih =>
    obtain ⟨rfl, hSize, _, hRest⟩ := h
    obtain ⟨hTagSize, hTagBit⟩ := hTag b List.mem_cons_self
    have hStop := hRest.le
    rw [blocksFrom_cons (by omega) (by omega) (by omega), hTagSize, hTagBit,
      ih hRest fun c hc => hTag c (List.mem_cons_of_mem b hc)]

theorem Thread.chainFrom {entry back limit : Nat} {l : List Nat} (h : m.Thread entry back l)
    (hLimit : l.length ≤ limit) : m.chainFrom limit (m.word entry) = l := by
  induction l generalizing entry back limit with
  | nil => rw [show m.word entry = 0 from h, chainFrom_zero]
  | cons b l ih =>
    obtain ⟨hZero, hEntry, _, hRest⟩ := h
    obtain ⟨limit, rfl⟩ := Nat.exists_eq_add_one_of_ne_zero
      (Nat.ne_of_gt (lt_of_lt_of_le (Nat.zero_lt_succ l.length) hLimit))
    rw [hEntry, chainFrom_succ hZero, ih hRest (Nat.le_of_succ_le_succ hLimit)]

namespace Shows

theorem blocks (h : m.Shows s T) : m.blocks = s.blocks :=
  blocksFrom_tiling h.tiling fun _ hb => ⟨h.size_tag hb, h.isAllocated_tag hb⟩

theorem chain (h : m.Shows s T) {k : Nat} (hk : k < 32) : m.chain m.size k = s.chains k :=
  (h.thread k hk).chainFrom (h.threaded.length_le hk)

theorem chains_of_le (h : m.Shows s T) {k : Nat} (hk : 32 ≤ k) : s.chains k = [] := by
  refine List.eq_nil_iff_forall_not_mem.mpr fun o ho => ?_
  obtain ⟨b, _, _, _, _, hBucket⟩ := h.listed.node k o ho
  exact absurd (Bucket.ofSize?_eq_some_iff.mp hBucket).1 (Nat.not_lt.mpr hk)

theorem unique (hs : m.Shows s T) (ht : m.Shows t T) : s = t := by
  have hChains : s.chains = t.chains := by
    funext k
    rcases Nat.lt_or_ge k 32 with hk | hk
    · rw [← hs.chain hk, ht.chain hk]
    · rw [hs.chains_of_le hk, ht.chains_of_le hk]
  obtain ⟨blocks, chains⟩ := s
  rw [Shape.mk.injEq]
  exact ⟨hs.blocks.symm.trans ht.blocks, hChains⟩

end Shows

end TaggedHeap.Memory
