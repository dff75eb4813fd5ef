import TaggedHeap.Proofs.Live
import TaggedHeap.Proofs.Verify

/-! # Sound memories

What a heap keeps between two operations is more than what verification asks for: both tags of
every block are exact, those of allocated blocks included, and no block is too large for a bucket.
-/

namespace TaggedHeap.Memory

structure Sound (m : Memory) (s : Shape) : Prop extends m.Orderly s where
  size_mod : m.size % 8 = 0
  size_le : m.size ≤ 2 ^ 31
  tags : ∀ b ∈ s.blocks, m.word b.offset = b.size + b.allocated.toNat ∧
    m.word (b.offset + b.size - 4) = b.size + b.allocated.toNat

variable {m : Memory} {s : Shape} {T : Tagging}

namespace AtRest

theorem listing (h : m.AtRest s T) : ((List.range 32).flatMap s.chains).Perm (freeOffsets s.blocks) := by
  have hLeft : ((List.range 32).flatMap s.chains).Nodup := by
    refine List.nodup_flatMap.mpr ⟨fun k _ => h.shows.listed.nodup k, ?_⟩
    refine List.nodup_range.imp_of_mem fun {k l} hk hl hNe => ?_
    exact fun o ho ho' => h.shows.threaded.disjoint k (List.mem_range.mp hk) l (List.mem_range.mp hl)
      hNe o ho ho'
  have hRight : (freeOffsets s.blocks).Nodup :=
    h.shows.tiling.nodup_offset.sublist ((List.filter_sublist).map Block.offset)
  refine (List.perm_ext_iff_of_nodup hLeft hRight).mpr fun o => ?_
  rw [List.mem_flatMap, mem_freeOffsets]
  constructor
  · rintro ⟨k, _, ho⟩
    obtain ⟨b, hb, hOffset, hFree, _⟩ := h.shows.listed.node k o ho
    exact ⟨b, hb, hFree, hOffset⟩
  · rintro ⟨b, hb, hFree, rfl⟩
    obtain ⟨k, hk⟩ := h.settled.complete b hb hFree
    have hBucket := (h.shows.mem_chain hb hk).2.2
    exact ⟨k, List.mem_range.mpr (Bucket.ofSize?_eq_some_iff.mp hBucket).1, hk⟩

/-- Verification accepts a memory at rest, whatever is required of the tags. -/
theorem orderly (h : m.AtRest s T) : m.Orderly s where
  size := h.shows.le_size
  prologueHeader := h.shows.prologueHeader
  prologueFooter := h.shows.prologueFooter
  tiling := h.shows.tiling
  large := h.settled.large
  header b hb := by
    refine ⟨(h.shows.size_tag hb).symm, ?_⟩
    rw [← h.shows.isAllocated_tag hb, tag, Tag.isAllocated, beq_iff_eq]
  epilogue := h.shows.epilogue
  footer b hb := T.footer (h.shows.tags b hb)
  fenced := h.settled.fenced
  thread := h.shows.thread
  listing := h.listing
  bucket k _ b hb ho := (Bucket.ofSize?_eq_some_iff.mp (h.shows.mem_chain hb ho).2.2).2

theorem sound (h : m.AtRest s) : m.Sound s where
  toOrderly := h.orderly
  size_mod := h.shows.size_mod
  size_le := h.shows.size_le
  tags := h.shows.tags

end AtRest

end TaggedHeap.Memory
