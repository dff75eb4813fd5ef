import TaggedHeap.Proofs.Account
import TaggedHeap.Proofs.Settings

/-! # What an allocation takes

An allocation takes the first block that is large enough, in the order of the buckets from that of
the size on. This finds a block whenever there is one: a free block is in the bucket for its size,
and the buckets before that of the request hold only smaller ones. Only if there is none does the
arena grow, by no more than it has to.
-/

namespace TaggedHeap

/-- The search finds a block if there is one. -/
theorem Memory.AtRest.fit_eq_none_iff {m : Memory} {s : Shape} {size : Nat} (h : m.AtRest s) :
    s.fit size = none ↔ ∀ b ∈ s.blocks, b.allocated = false → b.size < size := by
  constructor
  · intro hNone b hb hFree
    by_contra hFits
    obtain ⟨k, hk⟩ := h.settled.complete b hb hFree
    have hBucket := (h.shows.mem_chain hb hk).2.2
    have hLast := (Bucket.ofSize?_eq_some_iff.mp hBucket).1
    obtain ⟨j, hj, hFirst⟩ := Bucket.ofSize?_mono (Nat.not_lt.mp hFits) hBucket
    rw [Shape.fit, hFirst] at hNone
    refine List.find?_eq_none.mp hNone b ?_ (decide_eq_true (Nat.not_lt.mp hFits))
    refine List.mem_filterMap.mpr ⟨b.offset, ?_, h.shows.blockAt hb⟩
    exact List.mem_flatMap.mpr ⟨k, List.mem_range'_1.mpr (by omega), hk⟩
  · intro hLacks
    cases hFit : s.fit size with
    | none => rfl
    | some b =>
      obtain ⟨hb, hFree, hFits⟩ := h.shows.of_fit hFit
      have hSmall := hLacks b hb hFree
      omega

namespace Shape

variable {s : Shape} {pre post : List Block} {chains : Chains} {b : Block} {size k : Nat}

theorem before_eq (hRow : s.blocks = pre ++ b :: post) (hNew : b ∉ pre) : s.before b = pre := by
  have hPre : ∀ c ∈ pre, decide (c ≠ b) = true :=
    fun c hc => decide_eq_true fun hEq => hNew (hEq ▸ hc)
  rw [before, hRow, List.takeWhile_append_of_pos hPre, List.takeWhile_cons_of_neg (by simp),
    List.append_nil]

theorem after_eq (hRow : s.blocks = pre ++ b :: post) (hNew : b ∉ pre) : s.after b = post := by
  have hPre : ∀ c ∈ pre, decide (c ≠ b) = true :=
    fun c hc => decide_eq_true fun hEq => hNew (hEq ▸ hc)
  rw [after, hRow, List.dropWhile_append_of_pos hPre, List.dropWhile_cons_of_neg (by simp),
    List.tail_cons]

theorem clear_eq_filter {lo hi : Nat} (hLess : lo < hi)
    (hOutside : ∀ o ∈ chains k, o = lo ∨ o < lo ∨ hi ≤ o) :
    chains.clear lo hi k = (chains k).filter (· ≠ lo) := by
  refine List.filter_congr fun o ho => decide_eq_decide.mpr ?_
  have hOff := hOutside o ho
  omega

/-- A bucket loses the block that is taken and gains what is left of it. -/
theorem chains_take (hSize : 0 < b.size)
    (hOutside : ∀ o ∈ s.chains k, o = b.offset ∨ o < b.offset ∨ b.offset + b.size ≤ o) :
    (s.take b size).chains k =
      ((b.rest size).filter fun c => Bucket.ofSize? c.size = some k).map Block.offset ++
        (s.chains k).filter (· ≠ b.offset) := by
  rw [← clear_eq_filter (by omega) hOutside]
  change (b.rest size).foldl Chains.insert _ k = _
  unfold Block.rest
  split
  · simp only [List.foldl_cons, List.foldl_nil, Chains.insert, List.filter_cons, decide_eq_true_eq]
    split
    · rfl
    · rfl
  · rfl

/-- Putting a block where another one was, or where there was none, concerns no other block. -/
theorem filter_insert_clear (hSize : 0 < b.size)
    (hOutside : ∀ o ∈ chains k, o = b.offset ∨ o < b.offset) :
    (((chains.clear b.offset (b.offset + b.size)).insert b) k).filter (· ≠ b.offset) =
      (chains k).filter (· ≠ b.offset) := by
  have hClear : chains.clear b.offset (b.offset + b.size) k = (chains k).filter (· ≠ b.offset) :=
    clear_eq_filter (by omega) fun o ho => (hOutside o ho).imp_right Or.inl
  unfold Chains.insert
  split
  · rw [List.filter_cons_of_neg (by simp), hClear, List.filter_filter]
    simp only [Bool.and_self]
  · rw [hClear, List.filter_filter]
    simp only [Bool.and_self]

end Shape

namespace Heap

variable {S : Type}

/-- The size of the block for a request of `n` bytes: the request and the overhead, aligned. -/
def roomFor (n : Nat) : Nat := (n + 39) / 8 * 8

/-- A request of `n` bytes does not overflow, and its block is no larger than blocks can be. -/
def Fits (n : Nat) : Prop := n + 39 < 2 ^ 64 ∧ roomFor n ≤ 2 ^ 31

theorem blockSizeFor_of_fits {n : Nat} (h : Fits n) : blockSizeFor n = .ok (roomFor n) :=
  (if_neg (Nat.not_le.mpr h.1)).trans (if_neg (Nat.not_lt.mpr h.2))

theorem blockSizeFor_of_not_fits {n : Nat} (h : ¬ Fits n) :
    blockSizeFor n = .error .tooLarge := by
  by_cases hOverflow : 2 ^ 64 ≤ n + 39
  · exact if_pos hOverflow
  · refine (if_neg hOverflow).trans (if_pos (Nat.not_le.mp fun hSmall => h ?_))
    exact ⟨Nat.not_le.mp hOverflow, hSmall⟩

/-- The blocks in a bucket, in the order of its chain. -/
def chain (h : Heap S) (k : Nat) : List Nat := h.memory.chain h.currentSize k

/-- No free block has `size` bytes. -/
def Lacks (h : Heap S) (size : Nat) : Prop :=
  ∀ b ∈ h.blocks, b.allocated = false → b.size < size

/-- The block is the first one of at least `size` bytes in the chains of the buckets from that of
`size` on. -/
structure FirstFit (h : Heap S) (size : Nat) (b : Block) : Prop where
  free : b.allocated = false
  fits : size ≤ b.size
  first : ∃ k before after, Bucket.ofSize? size = some k ∧
    (List.range' k (32 - k)).flatMap h.chain = before ++ b.offset :: after ∧
    ∀ c ∈ h.blocks, c.offset ∈ before → c.size < size

/-- The block that is taken for a block of `size` bytes, with the blocks before it and after it, in
an arena of the size that it then has. If no free block is large enough, the arena has grown, and
what is new is one block with the last one if that is free. -/
inductive Offers (h : Heap S) (size growth : Nat) :
    List Block → Block → List Block → (arenaSize : Nat) → Prop where
  | found {pre post : List Block} {b : Block} (hBlocks : h.blocks = pre ++ b :: post)
      (hFirst : h.FirstFit size b) : Offers h size growth pre b post h.currentSize
  | merged {pre : List Block} {b : Block} (hLacks : h.Lacks size) (hBlocks : h.blocks = pre ++ [b])
      (hFree : b.allocated = false) :
      Offers h size growth pre ⟨b.offset, b.size + growth, false⟩ [] (h.currentSize + growth)
  | fresh (hLacks : h.Lacks size) (hLast : ∀ b ∈ h.blocks.getLast?, b.allocated = true) :
      Offers h size growth h.blocks ⟨h.currentSize - 4, growth, false⟩ [] (h.currentSize + growth)

/-- The heap has no free block of `size` bytes, and no room to grow. -/
def Full (h : Heap S) (cap size growth : Nat) : Prop :=
  h.Lacks size ∧ (2 ^ 31 < h.currentSize + growth ∨ cap < h.currentSize + growth)

/-- What a request for `n` bytes is answered on a heap with a cap and a least growth, and what it
leaves of the heap. -/
structure Allots (h : Heap S) (cap chunk n : Nat) (answer : Except HeapError Nat)
    (h' : Heap S) : Prop where
  zeroSize : answer = .error .zeroSize ↔ n = 0
  tooLarge : answer = .error .tooLarge ↔ n ≠ 0 ∧ ¬ Fits n
  outOfMemory : answer = .error .outOfMemory ↔
    n ≠ 0 ∧ Fits n ∧ h.Full cap (roomFor n) (max (roomFor n) chunk)
  done : n ≠ 0 → Fits n → ¬ h.Full cap (roomFor n) (max (roomFor n) chunk) →
    ∃ pre b post arenaSize,
      h.Offers (roomFor n) (max (roomFor n) chunk) pre b post arenaSize ∧
      answer = .ok (b.offset + 4) ∧ h'.currentSize = arenaSize ∧
      h'.blocks = pre ++ b.taken (roomFor n) :: (b.rest (roomFor n) ++ post) ∧
      ∀ k < 32, h'.chain k =
        ((b.rest (roomFor n)).filter fun c => Bucket.ofSize? c.size = some k).map Block.offset ++
          (h.chain k).filter (· ≠ b.offset)

section Offers

variable {h : Heap S} {s : Shape} {b : Block} {size : Nat}

theorem chain_eq (hShows : h.memory.Shows s) {k : Nat} (hk : k < 32) : h.chain k = s.chains k :=
  hShows.chain hk

theorem firstFit_of_fit (hShows : h.memory.Shows s) (hFit : s.fit size = some b) :
    h.FirstFit size b := by
  obtain ⟨hb, hFree, hFits⟩ := hShows.of_fit hFit
  refine ⟨hFree, hFits, ?_⟩
  unfold Shape.fit at hFit
  split at hFit
  · rename_i k hBucket
    have hChains : (List.range' k (32 - k)).flatMap h.chain =
        (List.range' k (32 - k)).flatMap s.chains := by
      refine List.flatMap_congr fun j hj => chain_eq hShows ?_
      have hRange := List.mem_range'_1.mp hj
      omega
    have hFound := hShows.find?_candidates size
      (l := (List.range' k (32 - k)).flatMap s.chains) fun o ho => by
        obtain ⟨j, _, hj⟩ := List.mem_flatMap.mp ho
        obtain ⟨c, hc, hOffset, _⟩ := hShows.listed.node j o hj
        exact ⟨c, hc, hOffset⟩
    rw [hFit, Option.map_some, List.find?_eq_some_iff_append] at hFound
    obtain ⟨_, before, after, hSplit, hSmall⟩ := hFound
    refine ⟨k, before, after, hBucket, hChains.trans hSplit, fun c hc hBefore => ?_⟩
    rw [blocks, hShows.blocks] at hc
    simpa [hShows.size_tag hc] using hSmall c.offset hBefore
  · cases hFit

end Offers

section Provision

variable {h : Heap S} {p q : Plan S} {b : Block} {size : Nat}

theorem Follows.lacks_iff (hFollows : h.Follows p) :
    h.Lacks size ↔ p.shape.fit size = none := by
  rw [hFollows.atRest.fit_eq_none_iff, Lacks, blocks, hFollows.atRest.shows.blocks]

/-- A plan grows by a block of its own, or makes the last block larger. -/
theorem Follows.extend_offers (hFollows : h.Follows p) (hLacks : h.Lacks size) {growth : Nat}
    (hGrowth : 0 < growth) : ∃ pre b,
      absorbed p.shape.blocks ⟨p.size - 4, growth, false⟩ [] = b ∧
      h.Offers size growth pre b [] (p.size + growth) ∧
      (p.shape.append (p.size - 4) growth).blocks = pre ++ [b] ∧ b ∉ pre ∧ ∀ k < 32,
        ((p.shape.append (p.size - 4) growth).chains k).filter (· ≠ b.offset) =
          (h.chain k).filter (· ≠ b.offset) := by
  have hShows := hFollows.atRest.shows
  have hBlocks : h.blocks = p.shape.blocks := hShows.blocks
  have hCurrent : h.currentSize = p.size := hFollows.size
  have hMemory := hFollows.size
  have hLow := hShows.le_size
  have hListed : ∀ k, ∀ o ∈ p.shape.chains k, ∃ b ∈ p.shape.blocks, b.offset = o := by
    intro k o ho
    obtain ⟨b, hb, hOffset, _⟩ := hShows.listed.node k o ho
    exact ⟨b, hb, hOffset⟩
  rcases last_cases p.shape.blocks with hLast | ⟨pre, t, hRow, hFree⟩
  · have hBefore : ∀ b ∈ p.shape.blocks, b.offset < p.size - 4 := by
      intro b hb
      have hBounds := hShows.bounds hb
      omega
    refine ⟨p.shape.blocks, ⟨p.size - 4, growth, false⟩, ?_, ?_, ?_, ?_, fun k hk => ?_⟩
    · rw [absorbed, absorbBefore_of_allocated hLast]
      rfl
    · rw [← hBlocks, ← hCurrent]
      exact .fresh hLacks (hBlocks ▸ hLast)
    · rw [Shape.append, Shape.settle, absorbed, absorbBefore_of_allocated hLast]
      rfl
    · exact fun hb => absurd (hBefore _ hb) (lt_irrefl _)
    · rw [chain_eq hShows hk, Shape.append, Shape.settle, absorbed,
        absorbBefore_of_allocated hLast]
      refine Shape.filter_insert_clear hGrowth fun o ho => Or.inr ?_
      obtain ⟨b, hb, rfl⟩ := hListed k o ho
      exact hBefore b hb
  · have hTiling := hShows.tiling
    rw [hRow] at hTiling
    obtain ⟨hPre, hSize, _⟩ := hTiling.cut
    have hBefore : ∀ b ∈ pre, b.offset < t.offset := by
      intro b hb
      have hBounds := hPre.bounds hb
      omega
    refine ⟨pre, ⟨t.offset, t.size + growth, false⟩, ?_, ?_, ?_, ?_, fun k hk => ?_⟩
    · rw [hRow, absorbed, absorbBefore_concat hFree]
      rfl
    · rw [← hCurrent]
      exact .merged hLacks (hBlocks.trans hRow) hFree
    · rw [Shape.append, Shape.settle, absorbed, hRow, absorbBefore_concat hFree]
      rfl
    · exact fun hb => absurd (hBefore _ hb) (lt_irrefl _)
    · rw [chain_eq hShows hk, Shape.append, Shape.settle, absorbed, hRow,
        absorbBefore_concat hFree]
      refine Shape.filter_insert_clear (b := ⟨t.offset, t.size + growth, false⟩)
        (Nat.add_pos_right _ hGrowth) fun o ho => ?_
      obtain ⟨b, hb, rfl⟩ := hListed k o ho
      rw [hRow] at hb
      rcases List.mem_append.mp hb with hb | hb
      · exact Or.inr (hBefore b hb)
      · rw [List.eq_of_mem_singleton hb]
        exact Or.inl rfl

variable [Supply S]

/-- The block that a plan provides, in the row in which it lies. -/
theorem Follows.offers_of_provide (hFollows : h.Follows p) (hSize : 0 < size)
    (hProvide : p.provide size = (.ok b, q)) :
    ∃ pre post, h.Offers size (max size p.config.chunkSize) pre b post q.size ∧
      q.shape.blocks = pre ++ b :: post ∧ b ∉ pre ∧ ∀ k < 32,
        (q.shape.chains k).filter (· ≠ b.offset) = (h.chain k).filter (· ≠ b.offset) := by
  have hShows := hFollows.atRest.shows
  have hCurrent : h.currentSize = p.size := hFollows.size
  unfold Plan.provide at hProvide
  split at hProvide
  · rename_i c hFit
    cases hProvide
    have hb := (hShows.of_fit hFit).1
    have hRow := Shape.blocks_eq hb
    have hTiling := hShows.tiling
    rw [hRow] at hTiling
    refine ⟨p.shape.before b, p.shape.after b, ?_, hRow, fun hIn => ?_, fun k hk => ?_⟩
    · rw [← hCurrent]
      exact .found (hShows.blocks.trans hRow) (firstFit_of_fit hShows hFit)
    · exact absurd rfl (hTiling.mem_others.mpr (Or.inl hIn)).1
    · rw [chain_eq hShows hk]
  · rename_i hFit
    obtain ⟨pre, c, hBlock, hOffers, hOthers⟩ := hFollows.extend_offers
      (hFollows.lacks_iff.mpr hFit) (lt_of_lt_of_le hSize (le_max_left size p.config.chunkSize))
    unfold Plan.extend at hProvide
    split at hProvide
    · cases hProvide
    · split at hProvide
      · cases hProvide
      · cases hProvide
        rw [hBlock]
        exact ⟨pre, [], hOffers, hOthers⟩

end Provision

section Allocation

variable {h : Heap Cap} {p : Plan Cap} {cap size n : Nat}

theorem extend_of_full (hSupply : p.supply = ⟨cap⟩)
    (hFull : 2 ^ 31 < p.size + size ∨ cap < p.size + size) : ∃ q : Plan Cap,
      p.extend size = (.error .outOfMemory, q) ∧ q.shape = p.shape ∧ q.size = p.size ∧
        q.metrics = p.metrics := by
  unfold Plan.extend
  split
  · exact ⟨p, rfl, rfl, rfl, rfl⟩
  · rw [hSupply]
    simp only [Supply.request, Cap.admits]
    rw [if_neg (by omega)]
    exact ⟨_, rfl, rfl, rfl, rfl⟩

theorem extend_of_room (hSupply : p.supply = ⟨cap⟩) (hSmall : p.size + size ≤ 2 ^ 31)
    (hCap : p.size + size ≤ cap) : ∃ (b : Block) (q : Plan Cap),
      p.extend size = (.ok b, q) ∧ q.shape = p.shape.append (p.size - 4) size ∧
        q.size = p.size + size ∧ q.metrics = p.metrics.growth := by
  unfold Plan.extend
  rw [if_neg (Nat.not_lt.mpr hSmall), hSupply]
  simp only [Supply.request, Cap.admits]
  rw [if_pos hCap]
  exact ⟨_, _, rfl, rfl, rfl, rfl⟩

theorem Follows.provide_full (hFollows : h.Follows p) (hSupply : p.supply = ⟨cap⟩)
    (hFull : h.Full cap size (max size p.config.chunkSize)) :
    ∃ q, p.provide size = (.error .outOfMemory, q) := by
  obtain ⟨hLacks, hNoRoom⟩ := hFull
  rw [show h.currentSize = p.size from hFollows.size] at hNoRoom
  obtain ⟨q, hExtend, _⟩ := extend_of_full hSupply hNoRoom
  rw [Plan.provide, hFollows.lacks_iff.mp hLacks]
  exact ⟨q, hExtend⟩

theorem Follows.provide_of_room (hFollows : h.Follows p) (hSupply : p.supply = ⟨cap⟩)
    (hRoom : ¬ h.Full cap size (max size p.config.chunkSize)) :
    ∃ b q, p.provide size = (.ok b, q) := by
  unfold Plan.provide
  cases hFit : p.shape.fit size with
  | some b => exact ⟨b, p, rfl⟩
  | none =>
    have hGrows : ¬ (2 ^ 31 < p.size + max size p.config.chunkSize ∨
        cap < p.size + max size p.config.chunkSize) := by
      rw [← show h.currentSize = p.size from hFollows.size]
      exact fun hNoRoom => hRoom ⟨hFollows.lacks_iff.mpr hFit, hNoRoom⟩
    obtain ⟨b, q, hExtend, _⟩ := extend_of_room hSupply
      (Nat.not_lt.mp fun h => hGrows (Or.inl h)) (Nat.not_lt.mp fun h => hGrows (Or.inr h))
    exact ⟨b, q, hExtend⟩

theorem Follows.allots (hFollows : h.Follows p) (hConfig : p.config.Roomy)
    (hSupply : p.supply = ⟨cap⟩) (n : Nat) :
    ∃ answer h', h.tryAllocate n = .ok (answer, h') ∧
      h.Allots cap p.config.chunkSize n answer h' := by
  obtain ⟨h', hRun, hFollows'⟩ := hFollows.tryAllocate hConfig n
  refine ⟨_, h', hRun, ?_⟩
  unfold Plan.tryAllocate at hFollows' ⊢
  by_cases hZero : n = 0
  · rw [if_pos hZero]
    refine ⟨?_, ?_, ?_, fun h => absurd hZero h⟩
    · simp [hZero]
    · simp [hZero]
    · simp [hZero]
  rw [if_neg hZero] at hFollows' ⊢
  by_cases hFits : Fits n
  · rw [blockSizeFor_of_fits hFits] at hFollows' ⊢
    by_cases hFull : h.Full cap (roomFor n) (max (roomFor n) p.config.chunkSize)
    · obtain ⟨q, hProvide⟩ := hFollows.provide_full hSupply hFull
      dsimp only
      rw [hProvide]
      refine ⟨?_, ?_, ?_, fun _ _ h => absurd hFull h⟩
      · simp [hZero]
      · simp [hFits]
      · simp [hZero, hFits, hFull]
    · obtain ⟨b, q, hProvide⟩ := hFollows.provide_of_room hSupply hFull
      obtain ⟨pre, post, hOffers, hRow, hNew, hChains⟩ :=
        hFollows.offers_of_provide (by unfold roomFor; omega) hProvide
      dsimp only at hFollows' ⊢
      rw [hProvide] at hFollows' ⊢
      refine ⟨?_, ?_, ?_, fun _ _ _ => ⟨pre, b, post, q.size, hOffers, rfl, hFollows'.size, ?_, ?_⟩⟩
      · simp [hZero]
      · simp [hFits]
      · simp [hFull]
      · rw [blocks, hFollows'.atRest.shows.blocks, ← Shape.before_eq hRow hNew,
          ← Shape.after_eq hRow hNew]
        rfl
      · intro k hk
        have hMin : 32 ≤ roomFor n := by unfold roomFor; omega
        obtain ⟨_, _, hProvided⟩ :=
          hFollows.provide hConfig hMin (by unfold roomFor; omega) hFits.2
        rw [hProvide] at hProvided
        have hb : b ∈ q.shape.blocks := hRow ▸ List.mem_append_right pre List.mem_cons_self
        have hBounds := hProvided.atRest.shows.bounds hb
        rw [chain_eq hFollows'.atRest.shows hk, ← hChains k hk]
        exact Shape.chains_take (by omega) fun o ho => hProvided.atRest.shows.outside hb ho
  · rw [blockSizeFor_of_not_fits hFits]
    refine ⟨?_, ?_, ?_, fun _ h => absurd h hFits⟩
    · simp [hZero]
    · simp [hZero, hFits]
    · simp [hFits]

end Allocation

end Heap

namespace Session

/-- What an allocation takes, and when it is refused, on any heap in use. -/
theorem reaches_allots {config : Config} {cap : Nat} {h : Heap Cap} {s : Session Cap}
    (hValid : config.validate = .ok ()) (hChunk : 32 ≤ config.chunkSize)
    (hWord : config.chunkSize < 2 ^ 64)
    (hBuild : Heap.ofArena (.fresh ⟨cap⟩) config = .ok (.ok h)) (hReach : Reaches ⟨h, []⟩ s)
    (n : Nat) : ∃ answer h', s.heap.tryAllocate n = .ok (answer, h') ∧
      s.heap.Allots cap config.chunkSize n answer h' := by
  obtain ⟨t, hStart⟩ := steady_of_built ⟨hValid, hChunk, hWord⟩ hBuild
  obtain ⟨u, hSteady⟩ := hStart.reaches hReach
  obtain ⟨hSupply, hConfig⟩ := hReach.set (Heap.set_of_built hBuild)
  have hAllots := (Heap.follows_plan hSteady.atRest).allots hSteady.config hSupply n
  rwa [← hConfig]

theorem reaches_allots_merged : ∃ (s : Session Cap) (h' : Heap Cap),
    s.heap.blocks = [⟨140, 40, true⟩, ⟨180, 56, false⟩] ∧
      s.heap.tryAllocate 100 = .ok (.ok 184, h') ∧ s.heap.Allots 400 96 100 (.ok 184) h' ∧
      h'.blocks = [⟨140, 40, true⟩, ⟨180, 136, true⟩, ⟨316, 56, false⟩] := by
  have hMerged : rehearse (⟨400⟩ : Cap) { chunkSize := 96 } [.allocate 8]
      (fun s => s.heap.blocks == [⟨140, 40, true⟩, ⟨180, 56, false⟩] &&
        match s.heap.tryAllocate 100 with
        | .ok (answer, h') => answer == .ok 184 &&
          h'.blocks == [⟨140, 40, true⟩, ⟨180, 136, true⟩, ⟨316, 56, false⟩]
        | .error _ => false) = true := by
    decide +kernel
  obtain ⟨h, s, hBuild, hPermits, hRun, hCheck⟩ := exists_of_rehearse hMerged
  obtain ⟨answer, h', hAllocate, hAllots⟩ := reaches_allots rfl (by decide) (by decide) hBuild
    (Reaches.start.run hPermits hRun) 100
  simp only [hAllocate, Bool.and_eq_true, beq_iff_eq] at hCheck
  obtain ⟨hBlocks, rfl, hBlocks'⟩ := hCheck
  exact ⟨s, h', hBlocks, hAllocate, hAllots, hBlocks'⟩

end Session

end TaggedHeap
