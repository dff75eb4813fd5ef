import TaggedHeap.Proofs.Allotment

/-! # Taking and giving back

What an allocation has taken comes back whole when it is released: what was left of the block is
merged into it again, and the block is the first one in its bucket. So the next request of that size
takes it again, for the buckets that are searched before have nothing that is large enough.
-/

namespace TaggedHeap

/-- The shape in which a free block has come to be the first one in its bucket. -/
def Shape.promote (s : Shape) (b : Block) : Shape where
  blocks := s.blocks
  chains := (s.chains.clear b.offset (b.offset + b.size)).insert b

section Promotion

variable {m : Memory} {s : Shape} {b c : Block} {size j k : Nat}

/-- Giving back what has been taken of a block. -/
theorem Memory.AtRest.giveBack_take (h : m.AtRest s) (hb : b ∈ s.blocks)
    (hFree : b.allocated = false) (hFits : size ≤ b.size) :
    (s.take b size).giveBack (b.taken size) = s.promote b := by
  have hTiling := h.shows.tiling
  have hFenced := h.settled.fenced
  have hRow := Shape.blocks_eq hb
  have hBounds := h.shows.bounds hb
  rw [hRow] at hTiling hFenced
  obtain ⟨hLast, hFirst⟩ := hFenced.beside hFree
  have hTaken : (s.take b size).blocks =
      s.before b ++ b.taken size :: (b.rest size ++ s.after b) := rfl
  have hNew : b.taken size ∉ s.before b := by
    intro hIn
    have hBounds' := hTiling.cut.1.bounds hIn
    have hOffset : (b.taken size).offset = b.offset := rfl
    omega
  have hAfter : absorbAfter ⟨(b.taken size).offset, (b.taken size).size, false⟩
      (b.rest size ++ s.after b) = (b, s.after b) := by
    obtain ⟨offset, width, allocated⟩ := b
    obtain rfl : allocated = false := hFree
    unfold Block.taken Block.rest
    dsimp only
    split
    · rw [List.singleton_append, absorbAfter_cons rfl, Nat.add_sub_cancel' hFits]
    · rw [List.nil_append, absorbAfter_of_allocated hFirst]
  have hClear : (s.take b size).chains.clear b.offset (b.offset + b.size) =
      s.chains.clear b.offset (b.offset + b.size) := by
    refine (Chains.clear_foldl_insert fun c hc => ?_).trans (Chains.clear_clear _ _ _)
    obtain ⟨rfl, hLarge⟩ := Block.mem_rest hc
    dsimp only
    omega
  rw [Shape.giveBack, Shape.before_eq hTaken hNew, Shape.after_eq hTaken hNew, Shape.settle,
    absorbed, absorbBefore_of_allocated hLast]
  dsimp only
  rw [hAfter, hClear, ← hRow]
  rfl

theorem Shape.take_promote (hSize : 0 < b.size) : (s.promote b).take b size = s.take b size := by
  have hClear : (s.promote b).chains.clear b.offset (b.offset + b.size) =
      s.chains.clear b.offset (b.offset + b.size) :=
    (Chains.clear_insert le_rfl (Nat.lt_add_of_pos_right hSize)).trans (Chains.clear_clear _ _ _)
  unfold Shape.take Shape.carve
  rw [hClear]
  rfl

/-- Once a block comes first in its bucket, a search that nothing before the bucket satisfies finds
it. -/
theorem Memory.AtRest.fit_promote {n : Memory} (h : m.AtRest s) (h' : n.Shows (s.promote b))
    (hb : b ∈ s.blocks) (hFree : b.allocated = false) (hFits : size ≤ b.size)
    (hLess : ∀ k, b.offset ∈ s.chains k → ∀ j < k, ∀ c ∈ s.blocks, c.offset ∈ s.chains j →
      c.size < size) : (s.promote b).fit size = some b := by
  obtain ⟨k, hk⟩ := h.settled.complete b hb hFree
  have hBucket := (h.shows.mem_chain hb hk).2.2
  have hHead : (s.promote b).chains k =
      b.offset :: s.chains.clear b.offset (b.offset + b.size) k := if_pos hBucket
  refine h'.fit_of_first hb hHead hFits fun j hj c hc hIn => ?_
  rcases Chains.mem_insert.mp hIn with ⟨hSame, _⟩ | hOld
  · rw [hBucket] at hSame
    cases hSame
    exact absurd hj (lt_irrefl k)
  · exact hLess k hk j hj c hc (Chains.mem_clear.mp hOld).1

end Promotion

namespace Plan

variable {S : Type} {p p' q : Plan S} {b : Block} {n size pointer : Nat}

theorem release_of_owner (hOwner : p.shape.owner pointer = .ok b) :
    ∃ q, p.release pointer = (.ok (), q) ∧ q.shape = p.shape.giveBack b ∧ q.size = p.size ∧
      q.config = p.config := by
  unfold release
  rw [hOwner]
  exact ⟨_, rfl, rfl, rfl, rfl⟩

variable [Supply S]

theorem provide_config (p : Plan S) (size : Nat) : (p.provide size).2.config = p.config := by
  unfold provide extend
  split
  · rfl
  · split
    · rfl
    · split
      · rfl
      · rfl

/-- What a plan has done if it has answered a request with a pointer. -/
theorem tryAllocate_ok (hRun : p.tryAllocate n = (.ok pointer, p')) : ∃ size b q,
    n ≠ 0 ∧ Heap.blockSizeFor n = .ok size ∧ p.provide size = (.ok b, q) ∧
      pointer = b.offset + 4 ∧ p'.shape = q.shape.take b size ∧ p'.size = q.size ∧
      p'.config = p.config := by
  unfold tryAllocate at hRun
  split at hRun
  · cases hRun
  · rename_i hNonzero
    split at hRun
    · cases hRun
    · rename_i size hSize
      split at hRun
      · cases hRun
      · rename_i b q hProvide
        cases hRun
        refine ⟨size, b, q, hNonzero, hSize, hProvide, rfl, rfl, rfl, ?_⟩
        have hConfig := p.provide_config size
        rwa [hProvide] at hConfig

theorem tryAllocate_of_fit (hNonzero : n ≠ 0) (hSize : Heap.blockSizeFor n = .ok size)
    (hFit : p.shape.fit size = some b) : ∃ q, p.tryAllocate n = (.ok (b.offset + 4), q) ∧
      q.shape = p.shape.take b size ∧ q.size = p.size := by
  unfold tryAllocate provide
  rw [if_neg hNonzero, hSize]
  dsimp only
  rw [hFit]
  exact ⟨_, rfl, rfl, rfl⟩

end Plan

namespace Heap

variable {S : Type} {h h₁ : Heap S} {p q : Plan S} {b c : Block} {n size j k pointer : Nat}

/-- The blocks of the heap if its arena had this size: what is new is one free block, with the last
one if that is free. -/
inductive Stretched (h : Heap S) : (arenaSize : Nat) → List Block → Prop where
  | same : h.Stretched h.currentSize h.blocks
  | merged {pre : List Block} {b : Block} {growth : Nat} (hGrowth : 0 < growth)
      (hBlocks : h.blocks = pre ++ [b]) (hFree : b.allocated = false) :
      h.Stretched (h.currentSize + growth) (pre ++ [⟨b.offset, b.size + growth, false⟩])
  | fresh {growth : Nat} (hGrowth : 0 < growth)
      (hLast : ∀ b ∈ h.blocks.getLast?, b.allocated = true) :
      h.Stretched (h.currentSize + growth) (h.blocks ++ [⟨h.currentSize - 4, growth, false⟩])

theorem Offers.stretched {growth arenaSize : Nat} {pre post : List Block}
    (hOffers : h.Offers size growth pre b post arenaSize) (hGrowth : 0 < growth) :
    h.Stretched arenaSize (pre ++ b :: post) := by
  cases hOffers with
  | found hBlocks _ => exact hBlocks ▸ .same
  | merged _ hBlocks hFree => exact .merged hGrowth hBlocks hFree
  | fresh _ hLast => exact .fresh hGrowth hLast

/-- An allocation has been taken back and made again: the heap after the second one is the heap
after the first one, as far as blocks and buckets go, and between the two it is the heap before the
first one, but for a growth. -/
structure Restores [Supply S] (h h₁ : Heap S) (n pointer : Nat) (h₂ h₃ : Heap S) : Prop where
  release : h₁.release pointer = .ok (.ok (), h₂)
  regained : h.Stretched h₁.currentSize h₂.blocks
  again : h₂.tryAllocate n = .ok (.ok pointer, h₃)
  arena : h₂.currentSize = h₁.currentSize ∧ h₃.currentSize = h₁.currentSize
  blocks : h₃.blocks = h₁.blocks
  chains : ∀ k < 32, h₃.chain k = h₁.chain k

/-- What has been taken of a block is released, and the block comes first in its bucket. -/
theorem Follows.release_taken {m : Memory} {p' : Plan S} (hFollows : h.Follows p')
    (hShape : p'.shape = q.shape.take b size) (hRest : m.AtRest q.shape) (hb : b ∈ q.shape.blocks)
    (hFree : b.allocated = false) (hFits : size ≤ b.size) : ∃ h' r,
      h.release (b.offset + 4) = .ok (.ok (), h') ∧ h'.Follows r ∧
        r.shape = q.shape.promote b ∧ r.size = p'.size ∧ r.config = p'.config := by
  have hTaken : b.taken size ∈ p'.shape.blocks := by
    rw [hShape]
    exact List.mem_append_right _ List.mem_cons_self
  have hOwner : p'.shape.owner (b.offset + 4) = .ok (b.taken size) :=
    (hFollows.atRest.owner hTaken).trans (if_pos rfl)
  have hNames : p'.Names (b.offset + 4) := Or.inl ⟨b.taken size, hTaken, rfl⟩
  obtain ⟨h', hRelease, hFollows'⟩ := hFollows.release hNames
  obtain ⟨r, hPlan, hGiven, hKept⟩ := Plan.release_of_owner hOwner
  rw [hPlan] at hRelease hFollows'
  rw [hShape, hRest.giveBack_take hb hFree hFits] at hGiven
  exact ⟨h', r, hRelease, hFollows', hGiven, hKept⟩

variable [Supply S]

/-- The buckets before that of the block which a plan provides have nothing that is large enough. -/
theorem Follows.lt_of_provide {m : Memory} (hFollows : h.Follows p)
    (hProvide : p.provide size = (.ok b, q)) (hRest : m.AtRest q.shape)
    (hk : b.offset ∈ q.shape.chains k) (hj : j < k) (hc : c ∈ q.shape.blocks)
    (hIn : c.offset ∈ q.shape.chains j) : c.size < size := by
  have hb := (hFollows.provide_ok hProvide).1
  have hNe : c ≠ b := by
    rintro rfl
    have hSame := (hRest.shows.mem_chain hc hIn).2.2
    rw [(hRest.shows.mem_chain hb hk).2.2] at hSame
    cases hSame
    exact lt_irrefl j hj
  unfold Plan.provide at hProvide
  split at hProvide
  · rename_i hFit
    cases hProvide
    exact hFollows.atRest.shows.lt_of_fit hFit hk hj hc hIn
  · rename_i hFit
    have hSmall := hFollows.atRest.fit_eq_none_iff.mp hFit
    have hFree := (hRest.shows.mem_chain hc hIn).1
    unfold Plan.extend at hProvide
    split at hProvide
    · cases hProvide
    · split at hProvide
      · cases hProvide
      · cases hProvide
        rcases mem_settle hc with hEq | hOld | hOld
        · exact absurd hEq hNe
        · exact hSmall c hOld hFree
        · cases hOld

theorem Follows.tryAllocate_of_fit (hFollows : h.Follows p) (hConfig : p.config.Roomy)
    (hNonzero : n ≠ 0) (hSize : blockSizeFor n = .ok size) (hFit : p.shape.fit size = some b) :
    ∃ h' r, h.tryAllocate n = .ok (.ok (b.offset + 4), h') ∧ h'.Follows r ∧
      r.shape = p.shape.take b size ∧ r.size = p.size := by
  obtain ⟨h', hRun, hFollows'⟩ := hFollows.tryAllocate hConfig n
  obtain ⟨r, hPlan, hShape⟩ := Plan.tryAllocate_of_fit hNonzero hSize hFit
  rw [hPlan] at hRun hFollows'
  exact ⟨h', r, hRun, hFollows', hShape⟩

theorem Follows.restores (hFollows : h.Follows p) (hConfig : p.config.Roomy)
    (hRun : h.tryAllocate n = .ok (.ok pointer, h₁)) : ∃ h₂ h₃, h.Restores h₁ n pointer h₂ h₃ := by
  obtain ⟨h', hRun', hFollows₁⟩ := hFollows.tryAllocate hConfig n
  rcases hPlan : p.tryAllocate n with ⟨answer, p₁⟩
  rw [hPlan, hRun] at hRun'
  rw [hPlan] at hFollows₁
  cases hRun'
  dsimp only at hFollows₁
  obtain ⟨size, b, q, hNonzero, hBlockSize, hProvide, rfl, hShape₁, hSize₁, hConfig₁⟩ :=
    Plan.tryAllocate_ok hPlan
  obtain ⟨hRoom, hMod, hMax⟩ := blockSizeFor_eq_ok hBlockSize
  obtain ⟨hb, hFree, hFits⟩ := hFollows.provide_ok hProvide
  obtain ⟨_, _, hProvided⟩ := hFollows.provide hConfig (by omega) hMod hMax
  rw [hProvide] at hProvided
  have hRest : Memory.AtRest _ q.shape := hProvided.atRest
  have hBounds := hRest.shows.bounds hb
  obtain ⟨h₂, p₂, hRelease, hFollows₂, hShape₂, hSize₂, hConfig₂⟩ :=
    hFollows₁.release_taken hShape₁ hRest hb hFree hFits
  have hRest₂ : h₂.memory.AtRest (q.shape.promote b) := hShape₂ ▸ hFollows₂.atRest
  -- Nothing that the search meets before the block has become large enough.
  have hFit : p₂.shape.fit size = some b := by
    rw [hShape₂]
    exact hRest.fit_promote hRest₂.shows hb hFree hFits fun k hk j hj c hc hIn =>
      hFollows.lt_of_provide hProvide hRest hk hj hc hIn
  obtain ⟨h₃, p₃, hAgain, hFollows₃, hShape₃, hSize₃⟩ :=
    hFollows₂.tryAllocate_of_fit (by rwa [hConfig₂, hConfig₁]) hNonzero hBlockSize hFit
  rw [hShape₂, Shape.take_promote (by omega), ← hShape₁] at hShape₃
  have hShows₁ := hFollows₁.atRest.shows
  have hShows₃ : h₃.memory.Shows p₁.shape := hShape₃ ▸ hFollows₃.atRest.shows
  have hArena₁ : h₁.currentSize = p₁.size := hFollows₁.size
  have hArena₂ : h₂.currentSize = p₂.size := hFollows₂.size
  have hArena₃ : h₃.currentSize = p₃.size := hFollows₃.size
  refine ⟨h₂, h₃, hRelease, ?_, hAgain, ⟨by omega, by omega⟩, ?_, fun k hk => ?_⟩
  · obtain ⟨pre, post, hOffers, hRow, _⟩ := hFollows.offers_of_provide (by omega) hProvide
    rw [hArena₁, hSize₁, Heap.blocks, hRest₂.shows.blocks]
    exact hRow ▸ hOffers.stretched (by omega)
  · exact hShows₃.blocks.trans hShows₁.blocks.symm
  · rw [chain_eq hShows₃ hk, chain_eq hShows₁ hk]

end Heap

namespace Session

variable {S : Type} [Supply S] {s : Session S}

/-- What any allocation takes can be given back and taken again. -/
theorem reaches_restores {supply : S} {config : Config} {h : Heap S}
    (hValid : config.validate = .ok ()) (hChunk : 32 ≤ config.chunkSize)
    (hWord : config.chunkSize < 2 ^ 64)
    (hBuild : Heap.ofArena (.fresh supply) config = .ok (.ok h)) (hReach : Reaches ⟨h, []⟩ s)
    {n pointer : Nat} {h₁ : Heap S} (hAllocate : s.heap.tryAllocate n = .ok (.ok pointer, h₁)) :
    ∃ h₂ h₃, s.heap.Restores h₁ n pointer h₂ h₃ := by
  obtain ⟨t₀, hStart⟩ := steady_of_built ⟨hValid, hChunk, hWord⟩ hBuild
  obtain ⟨t, hSteady⟩ := hStart.reaches hReach
  exact (Heap.follows_plan hSteady.atRest).restores hSteady.config hAllocate

theorem reaches_restores_merged : ∃ (s : Session Cap) (h₁ h₂ h₃ : Heap Cap),
    s.heap.blocks = [⟨140, 40, true⟩, ⟨180, 56, false⟩] ∧
      s.heap.tryAllocate 100 = .ok (.ok 184, h₁) ∧ s.heap.Restores h₁ 100 184 h₂ h₃ ∧
      h₂.blocks = [⟨140, 40, true⟩, ⟨180, 192, false⟩] := by
  have hMerged : rehearse (⟨400⟩ : Cap) { chunkSize := 96 } [.allocate 8]
      (fun s => s.heap.blocks == [⟨140, 40, true⟩, ⟨180, 56, false⟩] &&
        match s.heap.tryAllocate 100 with
        | .ok (answer, h₁) => answer == .ok 184 && match h₁.release 184 with
          | .ok (_, h₂) => h₂.blocks == [⟨140, 40, true⟩, ⟨180, 192, false⟩]
          | .error _ => false
        | .error _ => false) = true := by
    decide +kernel
  obtain ⟨h, s, hBuild, hPermits, hRun, hCheck⟩ := exists_of_rehearse hMerged
  rw [Bool.and_eq_true, beq_iff_eq] at hCheck
  obtain ⟨hBlocks, hCheck⟩ := hCheck
  split at hCheck
  · rename_i answer h₁ hAllocate
    rw [Bool.and_eq_true, beq_iff_eq] at hCheck
    obtain ⟨rfl, hCheck⟩ := hCheck
    obtain ⟨h₂, h₃, hRestores⟩ := reaches_restores rfl (by decide) (by decide) hBuild
      (Reaches.start.run hPermits hRun) hAllocate
    rw [hRestores.release] at hCheck
    exact ⟨s, h₁, h₂, h₃, hBlocks, hAllocate, hRestores, eq_of_beq hCheck⟩
  · cases hCheck

end Session

end TaggedHeap
