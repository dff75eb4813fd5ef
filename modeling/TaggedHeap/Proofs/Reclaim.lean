import TaggedHeap.Proofs.Allotment

/-! # What a release reclaims

A release makes one free block of the block behind the pointer and of those of its two neighbours
that are free. These leave their buckets, and the new block comes first in the bucket for its size.
The arena neither grows nor shrinks, and nothing is written but tags of the blocks that have become
one, links of free blocks and the directory.
-/

namespace TaggedHeap

/-- A row of blocks around one of them, with those of its neighbours that are free set apart. -/
structure Amid (bs pre : List Block) (left : Option Block) (b : Block) (right : Option Block)
    (post : List Block) : Prop where
  row : bs = pre ++ left.toList ++ b :: (right.toList ++ post)
  leftFree : ∀ p ∈ left, p.allocated = false
  rightFree : ∀ q ∈ right, q.allocated = false
  leftFenced : left = none → ∀ p ∈ pre.getLast?, p.allocated = true
  rightFenced : right = none → ∀ q ∈ post.head?, q.allocated = true

/-- A block has been reclaimed together with its free neighbours: `merged` is in their place, and
in their buckets they are not. -/
structure Heap.Reclaims {S : Type} (h h' : Heap S) (pre : List Block) (left : Option Block)
    (b : Block) (right : Option Block) (post : List Block) (merged : Block) : Prop where
  amid : Amid h.blocks pre left b right post
  allocated : b.allocated = true
  free : merged.allocated = false
  covers : Tiling merged.offset (left.toList ++ b :: right.toList) (merged.offset + merged.size)
  blocks : h'.blocks = pre ++ merged :: post
  bucket : ∃ k < 32, Bucket.ofSize? merged.size = some k
  chains : ∀ k < 32, h'.chain k =
    (if Bucket.ofSize? merged.size = some k then [merged.offset] else []) ++
      (h.chain k).filter (· ∉ (left.toList ++ right.toList).map Block.offset)
  arena : h'.currentSize = h.currentSize
  bytes : h.memory.AgreeOff h'.memory fun j => Linkage h.blocks j ∨ Linkage h'.blocks j ∨
    ∃ c ∈ left.toList ++ b :: right.toList, InTags c j

/-- A block together with its neighbours, where there are such. -/
def Block.joined (left : Option Block) (b : Block) (right : Option Block) : Block :=
  ⟨(left.getD b).offset, left.elim 0 Block.size + b.size + right.elim 0 Block.size, false⟩

section Joining

variable {bs pre post : List Block} {left right : Option Block} {b : Block} {lo hi j : Nat}

theorem exists_amid (pre : List Block) (b : Block) (post : List Block) :
    ∃ l left right r, pre = l ++ left.toList ∧ post = right.toList ++ r ∧
      Amid (pre ++ b :: post) l left b right r := by
  rcases last_cases pre with hLast | ⟨l, p, rfl, hp⟩ <;>
    rcases first_cases post with hFirst | ⟨q, r, rfl, hq⟩
  · exact ⟨pre, none, none, post, by simp, rfl, by simp, by simp, by simp, fun _ => hLast,
      fun _ => hFirst⟩
  · exact ⟨pre, none, some q, r, by simp, rfl, by simp, by simp, by simp [hq], fun _ => hLast,
      by simp⟩
  · exact ⟨l, some p, none, post, rfl, rfl, rfl, by simp [hp], by simp, by simp, fun _ => hFirst⟩
  · exact ⟨l, some p, some q, r, rfl, rfl, rfl, by simp [hp], by simp [hq], by simp, by simp⟩

theorem Tiling.joined (h : Tiling lo (left.toList ++ b :: right.toList) hi) :
    Tiling (Block.joined left b right).offset (left.toList ++ b :: right.toList)
      ((Block.joined left b right).offset + (Block.joined left b right).size) := by
  cases left <;> cases right <;>
    simp only [Block.joined, Option.toList_none, Option.toList_some, Option.elim_none,
      Option.elim_some, Option.getD_none, Option.getD_some, List.nil_append, List.cons_append,
      Tiling, true_and] at h ⊢ <;>
    omega

theorem Tiling.inTags_of_ends (h : Tiling lo bs hi) (hLow : lo ≤ j) (hHigh : j < hi)
    (hEnds : j < lo + 4 ∨ hi - 4 ≤ j) : ∃ c ∈ bs, InTags c j := by
  obtain ⟨c, hc, hFrom, hTo⟩ := h.cover hLow hHigh
  have hBounds := h.bounds hc
  refine ⟨c, hc, ?_⟩
  simp only [InTags]
  omega

namespace Amid

/-- What merging leaves of a row is what has been set apart, joined. -/
theorem settle (h : Amid bs pre left b right post) (chains : Chains) :
    absorbed (pre ++ left.toList) ⟨b.offset, b.size, false⟩ (right.toList ++ post) =
        Block.joined left b right ∧
      (Shape.settle (pre ++ left.toList) ⟨b.offset, b.size, false⟩ (right.toList ++ post)
        chains).blocks = pre ++ Block.joined left b right :: post := by
  obtain ⟨_, hLeft, hRight, hLast, hFirst⟩ := h
  have hBefore : absorbBefore (pre ++ left.toList) ⟨b.offset, b.size, false⟩ =
      (pre, Block.joined left b none) := by
    cases left with
    | none =>
      rw [Option.toList_none, List.append_nil, absorbBefore_of_allocated (hLast rfl)]
      simp [Block.joined]
    | some p =>
      rw [Option.toList_some, absorbBefore_concat (hLeft p rfl)]
      simp [Block.joined]
  have hAfter : absorbAfter (Block.joined left b none) (right.toList ++ post) =
      (Block.joined left b right, post) := by
    cases right with
    | none => rw [Option.toList_none, List.nil_append, absorbAfter_of_allocated (hFirst rfl)]
    | some q =>
      rw [Option.toList_some, List.singleton_append, absorbAfter_cons (hRight q rfl)]
      simp [Block.joined]
  rw [Shape.settle, absorbed, hBefore, hAfter]
  exact ⟨rfl, rfl⟩

end Amid

/-- Of what is in the chains, only the free neighbours are where the joined block is. -/
theorem Amid.clear_joined {m : Memory} {s : Shape} {k : Nat} (h : Amid s.blocks pre left b right post)
    (hShows : m.Shows s) (hAllocated : b.allocated = true)
    (hCovers : Tiling lo (left.toList ++ b :: right.toList) hi) :
    s.chains.clear lo hi k =
      (s.chains k).filter (· ∉ (left.toList ++ right.toList).map Block.offset) := by
  have hParts : ∀ c ∈ left.toList ++ b :: right.toList, c ∈ s.blocks := by
    intro c hc
    rw [h.row]
    simp only [List.mem_append, List.mem_cons] at hc ⊢
    tauto
  refine List.filter_congr fun o ho => decide_eq_decide.mpr ?_
  obtain ⟨c, hc, rfl, hFree, _⟩ := hShows.listed.node k o ho
  constructor
  · rintro hOutside hIn
    obtain ⟨d, hd, hOffset⟩ := List.mem_map.mp hIn
    have hBounds := hCovers.bounds (b := d) (by simp only [List.mem_append, List.mem_cons] at hd ⊢; tauto)
    omega
  · intro hOther
    by_contra hInside
    obtain ⟨d, hd, hFrom, hTo⟩ := hCovers.cover (j := c.offset) (by omega) (by omega)
    have hBounds := hShows.bounds hc
    rcases hShows.tiling.eq_or_apart hc (hParts d hd) with rfl | hApart
    · refine hOther (List.mem_map_of_mem ?_)
      have hNe : c ≠ b := by
        rintro rfl
        rw [hAllocated] at hFree
        cases hFree
      simp only [List.mem_append, List.mem_cons] at hd ⊢
      tauto
    · omega

/-- Merging writes tags of what has been set apart, and links. -/
theorem Shape.Listed.cases_of_rewritten {s : Shape} (hListed : s.Listed)
    (hCovers : Tiling (Block.joined left b right).offset (left.toList ++ b :: right.toList)
      ((Block.joined left b right).offset + (Block.joined left b right).size))
    (hLarge : 16 ≤ (Block.joined left b right).size)
    (hRewritten : Rewritten bs s.chains (Block.joined left b right) j) :
    Linkage s.blocks j ∨ Linkage (pre ++ Block.joined left b right :: post) j ∨
      ∃ c ∈ left.toList ++ b :: right.toList, InTags c j := by
  rcases hRewritten with hLinks | ⟨_, hTags | ⟨hLow, hHigh⟩⟩
  · exact Or.inl (hListed.linkage hLinks)
  · simp only [InTags] at hTags
    exact Or.inr (Or.inr (hCovers.inTags_of_ends (by omega) (by omega) (by omega)))
  · exact Or.inr (Or.inl (Or.inr ⟨_, List.mem_append_right pre List.mem_cons_self, rfl, hLarge,
      hLow, hHigh⟩))

end Joining

namespace Heap

variable {S : Type} {h : Heap S} {s : Shape} {b : Block}

theorem release_reclaims (hRest : h.memory.AtRest s) (hb : b ∈ s.blocks)
    (hAllocated : b.allocated = true) : ∃ h' pre left right post merged,
      h.release (b.offset + 4) = .ok (.ok (), h') ∧
        h.Reclaims h' pre left b right post merged := by
  obtain ⟨bs, chains⟩ := s
  obtain ⟨l, r, rfl⟩ := List.append_of_mem hb
  obtain ⟨pre, left, right, post, rfl, rfl, hAmid⟩ := exists_amid l b r
  obtain ⟨n, _, hFree, hSize, _, hRelease⟩ := release_eq hRest hb hAllocated
  obtain ⟨n₁, n', hFree', hAgree₁, hShows₁, hAgree, hShows, hSettled⟩ :=
    hRest.shows.free_exact hRest.settled hAllocated
      fun p hp => hRest.signed (List.mem_append_left _ (List.mem_of_getLast? hp))
  obtain rfl : n = n' := Except.ok.inj (hFree.symm.trans hFree')
  obtain ⟨h', hRun, rfl⟩ : ∃ h', h.release (b.offset + 4) = .ok (.ok (), h') ∧ h'.memory = n :=
    ⟨_, hRelease, rfl⟩
  obtain ⟨hJoined, hRow⟩ := hAmid.settle chains
  have hBlocks : h.blocks = pre ++ left.toList ++ b :: (right.toList ++ post) := hRest.shows.blocks
  have hCovers : Tiling (Block.joined left b right).offset (left.toList ++ b :: right.toList)
      ((Block.joined left b right).offset + (Block.joined left b right).size) := by
    have hTiling := hRest.shows.tiling
    rw [← List.cons_append, ← List.append_assoc, List.append_assoc pre] at hTiling
    obtain ⟨_, hFront, _⟩ := Tiling.append_iff.mp hTiling
    obtain ⟨_, _, hParts⟩ := Tiling.append_iff.mp hFront
    exact hParts.joined
  have hMerged : Block.joined left b right ∈ pre ++ Block.joined left b right :: post :=
    List.mem_append_right pre List.mem_cons_self
  have hLarge := hSettled.large _ (hRow ▸ hMerged)
  have hBlocks' : h'.blocks = pre ++ Block.joined left b right :: post := hShows.blocks.trans hRow
  refine ⟨h', pre, left, right, post, Block.joined left b right, hRun, ?_⟩
  constructor
  · rwa [hBlocks]
  · exact hAllocated
  · rfl
  · exact hCovers
  · exact hBlocks'
  · exact hShows.bucketOf (hRow ▸ hMerged)
  · intro k hk
    rw [chain_eq hShows hk, chain_eq hRest.shows hk,
      ← hAmid.clear_joined hRest.shows hAllocated hCovers, Shape.settle, hJoined]
    dsimp only
    unfold Chains.insert
    split
    · rfl
    · rfl
  · exact hSize
  · rw [hJoined] at hAgree
    rw [hBlocks, hBlocks']
    refine (hAgree₁.mono fun j hj => ?_).trans (hAgree.mono fun j hj => ?_)
    · exact Or.inr (Or.inr ⟨b, List.mem_append_right _ List.mem_cons_self, hj⟩)
    · exact hRest.shows.listed.cases_of_rewritten hCovers (by omega) hj

end Heap

namespace Session

variable {S : Type} [Supply S] {s : Session S}

/-- What any live pointer leads to is reclaimed when it is released. -/
theorem reaches_reclaims {supply : S} {config : Config} {h : Heap S}
    (hValid : config.validate = .ok ()) (hChunk : 32 ≤ config.chunkSize)
    (hWord : config.chunkSize < 2 ^ 64)
    (hBuild : Heap.ofArena (.fresh supply) config = .ok (.ok h)) (hReach : Reaches ⟨h, []⟩ s)
    {g : Grant} (hg : g ∈ s.live) : ∃ h' pre left b right post merged,
      s.heap.release g.pointer = .ok (.ok (), h') ∧ g.pointer = b.offset + 4 ∧
        s.heap.Reclaims h' pre left b right post merged := by
  obtain ⟨t₀, hStart⟩ := steady_of_built ⟨hValid, hChunk, hWord⟩ hBuild
  obtain ⟨t, hSteady⟩ := hStart.reaches hReach
  obtain ⟨b, hb, hAllocated, hHolds⟩ := hSteady.grant g hg
  obtain ⟨h', pre, left, right, post, merged, hRun, hReclaims⟩ :=
    Heap.release_reclaims hSteady.atRest hb hAllocated
  rw [hHolds.pointer]
  exact ⟨h', pre, left, b, right, post, merged, hRun, rfl, hReclaims⟩

theorem reaches_reclaims_between : ∃ (s : Session Cap) (h' : Heap Cap),
    s.heap.blocks = [⟨140, 40, false⟩, ⟨180, 40, true⟩, ⟨220, 80, false⟩] ∧
      s.heap.release 184 = .ok (.ok (), h') ∧ h'.blocks = [⟨140, 160, false⟩] ∧
      ∃ pre left b right post merged, s.heap.Reclaims h' pre left b right post merged := by
  have hBetween : rehearse (⟨304⟩ : Cap) { chunkSize := 160 }
      [.allocate 8, .allocate 8, .release 144]
      (fun s => s.live.map Grant.pointer == [184] &&
        s.heap.blocks == [⟨140, 40, false⟩, ⟨180, 40, true⟩, ⟨220, 80, false⟩] &&
        match s.heap.release 184 with
        | .ok (_, h') => h'.blocks == [⟨140, 160, false⟩]
        | .error _ => false) = true := by
    decide +kernel
  obtain ⟨h, s, hBuild, hPermits, hRun, hCheck⟩ := exists_of_rehearse hBetween
  simp only [Bool.and_eq_true, beq_iff_eq] at hCheck
  obtain ⟨⟨hPointers, hBlocks⟩, hAfter⟩ := hCheck
  obtain ⟨g, hg, hPointer⟩ := List.mem_map.mp (hPointers ▸ List.mem_cons_self)
  obtain ⟨h', pre, left, b, right, post, merged, hRelease, _, hReclaims⟩ :=
    reaches_reclaims rfl (by decide) (by decide) hBuild (Reaches.start.run hPermits hRun) hg
  rw [hPointer] at hRelease
  simp only [hRelease, beq_iff_eq] at hAfter
  exact ⟨s, h', hBlocks, hRelease, hAfter, pre, left, b, right, post, merged, hReclaims⟩

end Session

end TaggedHeap
