import TaggedHeap.Proofs.Metering

/-! # Releasing in any order

The blocks of a heap between two operations are a canonical form: the allocated ones determine all
others, since the free space between two of them is one block. So what several releases leave does
not depend on their order, and once all is released there is one free block again.
-/

namespace TaggedHeap

namespace Tiling

variable {lo hi : Nat} {bs cs : List Block} {b c : Block}

/-- A free block extends to the next allocated one, so no other free block there is larger. -/
theorem le_of_fenced (hB : Tiling lo (b :: bs) hi) (hC : Tiling lo (c :: cs) hi)
    (hFenced : Fenced (b :: bs)) (hFreeB : b.allocated = false) (hFreeC : c.allocated = false)
    (hSame : ∀ d, d.allocated = true → d ∈ b :: bs → d ∈ c :: cs) : c.size ≤ b.size := by
  obtain ⟨rfl, hSizeB, _, hRestB⟩ := hB
  have hOffset : c.offset = b.offset := hC.1
  have hEnd := hC.2.2.2.le
  apply Nat.le_of_not_lt
  intro hShort
  cases bs with
  | nil =>
    have hStop : b.offset + b.size = hi := hRestB
    omega
  | cons d ds =>
    have hStart : d.offset = b.offset + b.size := hRestB.1
    have hAllocated : d.allocated = true := by
      refine (List.isChain_cons_cons.mp hFenced).1.resolve_left ?_
      rw [hFreeB]
      exact Bool.false_ne_true
    have hd : d ∈ c :: cs :=
      hSame d hAllocated (List.mem_cons_of_mem b List.mem_cons_self)
    rcases hC.eq_or_apart List.mem_cons_self hd with rfl | hApart
    · rw [hFreeC] at hAllocated
      cases hAllocated
    · omega

theorem head_eq_of_fenced (hB : Tiling lo (b :: bs) hi) (hC : Tiling lo (c :: cs) hi)
    (hFencedB : Fenced (b :: bs)) (hFencedC : Fenced (c :: cs))
    (hSame : ∀ d, d.allocated = true → (d ∈ b :: bs ↔ d ∈ c :: cs)) : b = c := by
  have hOffset : b.offset = c.offset := hB.1.trans hC.1.symm
  cases hAllocatedB : b.allocated with
  | true =>
    exact hC.eq_of_offset ((hSame b hAllocatedB).mp List.mem_cons_self) List.mem_cons_self hOffset
  | false =>
    cases hAllocatedC : c.allocated with
    | true =>
      exact hB.eq_of_offset List.mem_cons_self ((hSame c hAllocatedC).mpr List.mem_cons_self)
        hOffset
    | false =>
      have hLe := hB.le_of_fenced hC hFencedB hAllocatedB hAllocatedC fun d hd => (hSame d hd).mp
      have hGe := hC.le_of_fenced hB hFencedC hAllocatedC hAllocatedB fun d hd => (hSame d hd).mpr
      obtain ⟨offsetB, sizeB, allocatedB⟩ := b
      obtain ⟨offsetC, sizeC, allocatedC⟩ := c
      rw [Block.mk.injEq]
      exact ⟨hOffset, le_antisymm hGe hLe, hAllocatedB.trans hAllocatedC.symm⟩

/-- Fenced blocks are determined by those that are allocated. -/
theorem eq_of_fenced (hB : Tiling lo bs hi) (hC : Tiling lo cs hi) (hFencedB : Fenced bs)
    (hFencedC : Fenced cs) (hSame : ∀ d, d.allocated = true → (d ∈ bs ↔ d ∈ cs)) : bs = cs := by
  induction bs generalizing lo cs with
  | nil =>
    cases cs with
    | nil => rfl
    | cons c cs =>
      have hEmpty : lo = hi := hB
      have hBounds := hC.bounds List.mem_cons_self
      omega
  | cons b bs ih =>
    cases cs with
    | nil =>
      have hEmpty : lo = hi := hC
      have hBounds := hB.bounds List.mem_cons_self
      omega
    | cons c cs =>
      have hHead := head_eq_of_fenced hB hC hFencedB hFencedC hSame
      subst hHead
      have hSize := hB.2.1
      have hOut : ∀ ds, Tiling (b.offset + b.size) ds hi → b ∉ ds := by
        intro ds hTail hb
        have hBounds := hTail.bounds hb
        omega
      have hTails : ∀ d, d.allocated = true → (d ∈ bs ↔ d ∈ cs) := by
        intro d hd
        have hRow := hSame d hd
        rw [List.mem_cons, List.mem_cons] at hRow
        constructor
        · intro hIn
          refine (hRow.mp (Or.inr hIn)).resolve_left ?_
          rintro rfl
          exact hOut bs hB.2.2.2 hIn
        · intro hIn
          refine (hRow.mpr (Or.inr hIn)).resolve_left ?_
          rintro rfl
          exact hOut cs hC.2.2.2 hIn
      rw [ih hB.2.2.2 hC.2.2.2 hFencedB.tail hFencedC.tail hTails]

end Tiling

namespace Memory.AtRest

variable {m n : Memory} {s t : Shape} {k o : Nat}

/-- What is in a bucket can be told from the blocks. -/
theorem mem_chain_iff (h : m.AtRest s) : o ∈ s.chains k ↔
    ∃ b ∈ s.blocks, b.offset = o ∧ b.allocated = false ∧ Bucket.ofSize? b.size = some k := by
  constructor
  · intro ho
    obtain ⟨b, hb, hOffset, hFree, _, hBucket⟩ := h.shows.listed.node k o ho
    exact ⟨b, hb, hOffset, hFree, hBucket⟩
  · rintro ⟨b, hb, rfl, hFree, hBucket⟩
    obtain ⟨l, hl⟩ := h.settled.complete b hb hFree
    have hBucket' := (h.shows.mem_chain hb hl).2.2
    rw [hBucket] at hBucket'
    exact Option.some.inj hBucket' ▸ hl

/-- Memories of one size with the same allocated blocks have the same blocks, and the same ones in
each bucket. -/
theorem canonical (h : m.AtRest s) (h' : n.AtRest t) (hSize : m.size = n.size)
    (hSame : ∀ b, b.allocated = true → (b ∈ s.blocks ↔ b ∈ t.blocks)) :
    s.blocks = t.blocks ∧ ∀ k, (s.chains k).Perm (t.chains k) := by
  have hTiling := h'.shows.tiling
  rw [← hSize] at hTiling
  have hBlocks := h.shows.tiling.eq_of_fenced hTiling h.settled.fenced h'.settled.fenced hSame
  refine ⟨hBlocks, fun k => ?_⟩
  refine (List.perm_ext_iff_of_nodup (h.shows.listed.nodup k) (h'.shows.listed.nodup k)).mpr ?_
  intro o
  rw [h.mem_chain_iff, h'.mem_chain_iff, hBlocks]

/-- Without allocated blocks all the space is one free block. -/
theorem blocks_of_free (h : m.AtRest s) (hSpace : 144 < m.size)
    (hFree : ∀ b ∈ s.blocks, b.allocated = false) : s.blocks = [⟨140, m.size - 144, false⟩] := by
  have hMod := h.shows.size_mod
  have hWhole : Tiling 140 [⟨140, m.size - 144, false⟩] (m.size - 4) := by
    refine ⟨rfl, by dsimp only; omega, by dsimp only; omega, ?_⟩
    simp only [Tiling]
    omega
  refine h.shows.tiling.eq_of_fenced hWhole h.settled.fenced (List.IsChain.singleton _) ?_
  intro b hb
  constructor
  · intro hIn
    rw [hFree b hIn] at hb
    cases hb
  · intro hIn
    rw [List.mem_singleton.mp hIn] at hb
    cases hb

end Memory.AtRest

/-- Both counters that releases change can be told from the allocated blocks. -/
theorem Account.Balanced.metrics_eq {a b : Account} {m : Metrics} (hA : a.Balanced)
    (hB : b.Balanced) (hHeld : a.held = b.held)
    (hMetrics : ∃ releases liveBytes, a.metrics = { m with releases, liveBytes })
    (hMetrics' : ∃ releases liveBytes, b.metrics = { m with releases, liveBytes }) :
    a.metrics = b.metrics := by
  obtain ⟨hLive, hCount, _⟩ := hA
  obtain ⟨hLive', hCount', _⟩ := hB
  obtain ⟨releases, liveBytes, hMetrics⟩ := hMetrics
  obtain ⟨releases', liveBytes', hMetrics'⟩ := hMetrics'
  rw [hMetrics, hHeld] at hLive hCount
  rw [hMetrics'] at hLive' hCount'
  have hReleases : releases = releases' := by
    dsimp only at hCount hCount'
    omega
  rw [hMetrics, hMetrics', hReleases, show liveBytes = liveBytes' from hLive.trans hLive'.symm]

namespace Session

variable {S : Type} {s s₁ u u₁ u₂ : Session S} {t t₁ v v₁ v₂ : Shape} {ps qs : List Nat}
  {b : Block}

/-- What is left when some pointers have been released. -/
structure Discharged (s : Session S) (t : Shape) (ps : List Nat) (u : Session S) (v : Shape) :
    Prop where
  steady : u.Steady v
  live : u.live = s.live.filter fun g => g.pointer ∉ ps
  mem_iff : ∀ c, c.allocated = true → (c ∈ v.blocks ↔ c.offset + 4 ∉ ps ∧ c ∈ t.blocks)
  keeps : ∀ c ∈ v.blocks, c.allocated = true → s.heap.memory.Keeps u.heap.memory c
  size : u.heap.currentSize = s.heap.currentSize
  metrics : ∃ releases liveBytes, u.heap.metrics = { s.heap.metrics with releases, liveBytes }
  acts : s.heap.account.Acts u.heap.account

/-- The same, but for the order in which the buckets have their blocks, and for the journal. -/
structure Same (s u : Session S) : Prop where
  live : s.live = u.live
  size : s.heap.currentSize = u.heap.currentSize
  blocks : s.heap.blocks = u.heap.blocks
  chains : ∀ k < 32, (s.heap.memory.chain s.heap.currentSize k).Perm
    (u.heap.memory.chain u.heap.currentSize k)
  metrics : s.heap.metrics = u.heap.metrics
  payload : ∀ g ∈ s.live, ∃ data, s.heap.payload g.pointer = .ok (.ok data) ∧
    u.heap.payload g.pointer = .ok (.ok data)

namespace Discharged

theorem refl (hSteady : s.Steady t) : Discharged s t [] s t where
  steady := hSteady
  live := (List.filter_eq_self.mpr fun _ _ => decide_eq_true List.not_mem_nil).symm
  mem_iff _ _ := (and_iff_right List.not_mem_nil).symm
  keeps _ _ _ _ _ _ := rfl
  size := rfl
  metrics := ⟨_, _, rfl⟩
  acts := .refl

theorem trans (h₁ : Discharged s t ps s₁ t₁) (h₂ : Discharged s₁ t₁ qs u v) :
    Discharged s t (ps ++ qs) u v where
  steady := h₂.steady
  live := by
    rw [h₂.live, h₁.live, List.filter_filter]
    refine List.filter_congr fun g _ => ?_
    rw [← Bool.decide_and, decide_eq_decide, List.mem_append, not_or, and_comm]
  mem_iff c hc := by
    rw [h₂.mem_iff c hc, h₁.mem_iff c hc, List.mem_append, not_or, and_assoc, and_left_comm]
  keeps c hc hAllocated := by
    have hMid := ((h₂.mem_iff c hAllocated).mp hc).2
    exact (h₁.keeps c hMid hAllocated).trans (h₂.keeps c hc hAllocated)
  size := h₂.size.trans h₁.size
  metrics := by
    obtain ⟨_, _, hFirst⟩ := h₁.metrics
    obtain ⟨_, _, hSecond⟩ := h₂.metrics
    rw [hSecond, hFirst]
    exact ⟨_, _, rfl⟩
  acts := h₁.acts.trans h₂.acts

/-- The order of the releases does not show. -/
theorem same (h₁ : Discharged s t ps u₁ v₁) (h₂ : Discharged s t qs u₂ v₂) (hPerm : ps.Perm qs)
    (hBalanced : s.heap.account.Balanced) : u₁.Same u₂ := by
  have hSize := h₁.size.trans h₂.size.symm
  have hRest₁ := h₁.steady.atRest
  have hRest₂ := h₂.steady.atRest
  have hAllocated : ∀ c, c.allocated = true → (c ∈ v₁.blocks ↔ c ∈ v₂.blocks) := by
    intro c hc
    rw [h₁.mem_iff c hc, h₂.mem_iff c hc, hPerm.mem_iff]
  obtain ⟨hBlocks, hChains⟩ := hRest₁.canonical hRest₂ hSize hAllocated
  have hSameBlocks : u₁.heap.blocks = u₂.heap.blocks :=
    hRest₁.shows.blocks.trans (hBlocks.trans hRest₂.shows.blocks.symm)
  refine ⟨?_, hSize, hSameBlocks, ?_, ?_, ?_⟩
  · rw [h₁.live, h₂.live]
    refine List.filter_congr fun g _ => ?_
    rw [decide_eq_decide, hPerm.mem_iff]
  · intro k hk
    have hChain₁ := hRest₁.shows.chain hk
    have hChain₂ := hRest₂.shows.chain hk
    change (u₁.heap.memory.chain u₁.heap.memory.size k).Perm
      (u₂.heap.memory.chain u₂.heap.memory.size k)
    rw [hChain₁, hChain₂]
    exact hChains k
  · exact (h₁.acts.balanced hBalanced).1.metrics_eq (h₂.acts.balanced hBalanced).1
      (congrArg held hSameBlocks) h₁.metrics h₂.metrics
  · intro g hg
    obtain ⟨c, hc, hAllocatedC, hHolds⟩ := h₁.steady.grant g hg
    have hc' := (hAllocated c hAllocatedC).mp hc
    obtain ⟨data₁, hRun₁, hSize₁, hBytes₁⟩ := Heap.payload_atRest hRest₁ hc hAllocatedC
    obtain ⟨data₂, hRun₂, hSize₂, hBytes₂⟩ := Heap.payload_atRest hRest₂ hc' hAllocatedC
    have hEq : data₁ = data₂ := by
      refine ByteArray.ext_getElem (hSize₁.trans hSize₂.symm) fun j hj hj' => ?_
      rw [hBytes₁ j hj, hBytes₂ j hj', h₁.keeps c hc hAllocatedC _ (by omega) (by omega),
        h₂.keeps c hc' hAllocatedC _ (by omega) (by omega)]
    rw [hHolds.pointer]
    exact ⟨data₁, hRun₁, hEq ▸ hRun₂⟩

end Discharged

variable [Supply S]

theorem Steady.discharge_one (hSteady : s.Steady t) (hb : b ∈ t.blocks)
    (hAllocated : b.allocated = true) :
    ∃ u v, s.step (.release (b.offset + 4)) = .ok u ∧ Discharged s t [b.offset + 4] u v := by
  obtain ⟨n, v, _, hSize, hLoses, hRun⟩ := Heap.release_eq hSteady.atRest hb hAllocated
  refine ⟨_, v, by rw [Session.step, hRun, ok_bind]; rfl, ?_⟩
  refine ⟨hSteady.lose hb hLoses rfl, ?_, ?_, ?_, hSize, ⟨_, _, rfl⟩,
    .single (Heap.act_release hSteady.atRest hb hAllocated hRun)⟩
  · refine List.filter_congr fun g _ => ?_
    rw [decide_eq_decide, List.mem_singleton, ne_eq, Option.some_inj]
  · intro c hc
    rw [hLoses.mem_iff c hc, List.mem_singleton]
    refine and_congr_left fun hOld => not_congr ⟨fun hEq => congrArg (·.offset + 4) hEq, ?_⟩
    exact fun hEq => hSteady.atRest.shows.tiling.eq_of_offset hOld hb (Nat.add_right_cancel hEq)
  · intro c hc hAllocatedC
    obtain ⟨hNe, hOld⟩ := (hLoses.mem_iff c hAllocatedC).mp hc
    exact hLoses.keeps c hOld hAllocatedC hNe

/-- Live pointers can be released one after the other. -/
theorem Steady.discharge (hSteady : s.Steady t) (hNodup : ps.Nodup)
    (hLive : ∀ p ∈ ps, ∃ g ∈ s.live, g.pointer = p) :
    ∃ u v, s.run (ps.map .release) = .ok u ∧ Discharged s t ps u v := by
  induction ps generalizing s t with
  | nil => exact ⟨s, t, rfl, .refl hSteady⟩
  | cons p ps ih =>
    obtain ⟨hFresh, hRest⟩ := List.nodup_cons.mp hNodup
    obtain ⟨g, hg, rfl⟩ := hLive p List.mem_cons_self
    obtain ⟨b, hb, hAllocated, hHolds⟩ := hSteady.grant g hg
    obtain ⟨s₁, t₁, hStep, hOne⟩ := hSteady.discharge_one hb hAllocated
    rw [← hHolds.pointer] at hStep hOne
    have hLive₁ : ∀ q ∈ ps, ∃ f ∈ s₁.live, f.pointer = q := by
      intro q hq
      obtain ⟨f, hf, rfl⟩ := hLive q (List.mem_cons_of_mem _ hq)
      refine ⟨f, ?_, rfl⟩
      rw [hOne.live, List.mem_filter, decide_eq_true_eq, List.mem_singleton]
      exact ⟨hf, fun hEq => hFresh (hEq ▸ hq)⟩
    obtain ⟨u, v, hRun, hMore⟩ := ih hOne.steady hRest hLive₁
    refine ⟨u, v, ?_, hOne.trans hMore⟩
    rw [List.map_cons, Session.run, hStep, ok_bind, hRun]

/-- In whatever order pointers are released, the same is left, and once all are released there is
one free block. -/
theorem reaches_discharged {supply : S} {config : Config} {h : Heap S}
    (hValid : config.validate = .ok ()) (hChunk : 32 ≤ config.chunkSize)
    (hWord : config.chunkSize < 2 ^ 64)
    (hBuild : Heap.ofArena (.fresh supply) config = .ok (.ok h)) (hReach : Reaches ⟨h, []⟩ s)
    (hNodup : ps.Nodup) (hLive : ∀ p ∈ ps, ∃ g ∈ s.live, g.pointer = p) (hPerm : ps.Perm qs) :
    ∃ u₁ u₂, s.run (ps.map .release) = .ok u₁ ∧ s.run (qs.map .release) = .ok u₂ ∧
      (u₁.live = s.live.filter fun g => g.pointer ∉ ps) ∧ u₁.Same u₂ ∧
      ((∀ g ∈ s.live, g.pointer ∈ ps) →
        u₁.heap.blocks = [⟨140, u₁.heap.currentSize - 144, false⟩]) := by
  have hConfig : config.Roomy := ⟨hValid, hChunk, hWord⟩
  obtain ⟨t₀, hStart⟩ := steady_of_built hConfig hBuild
  obtain ⟨t, hSteady⟩ := hStart.reaches hReach
  have hBuilt : h.currentSize = 144 + config.chunkSize :=
    congrArg Account.size (Heap.ofArena_account hConfig hBuild)
  have hGrown : h.currentSize ≤ s.heap.currentSize := hStart.size_le hReach
  obtain ⟨u₁, v₁, hRun₁, h₁⟩ := hSteady.discharge hNodup hLive
  obtain ⟨u₂, v₂, hRun₂, h₂⟩ := hSteady.discharge (hPerm.nodup_iff.mp hNodup)
    fun q hq => hLive q (hPerm.mem_iff.mpr hq)
  refine ⟨u₁, u₂, hRun₁, hRun₂, h₁.live, h₁.same h₂ hPerm (balanced_of_reaches hConfig hBuild hReach),
    fun hAll => ?_⟩
  have hSize : u₁.heap.memory.size = s.heap.currentSize := h₁.size
  refine h₁.steady.atRest.shows.blocks.trans (h₁.steady.atRest.blocks_of_free (by omega) ?_)
  intro b hb
  rw [← Bool.not_eq_true]
  intro hAllocated
  obtain ⟨hKept, hOld⟩ := (h₁.mem_iff b hAllocated).mp hb
  obtain ⟨g, hg, hPointer⟩ := hSteady.block b hOld hAllocated
  exact hKept (hPointer ▸ hAll g hg)

theorem reaches_discharged_pair : ∃ s u₁ u₂ : Session Cap,
    s.live.map Grant.pointer = [184, 144] ∧
      s.run [.release 144, .release 184] = .ok u₁ ∧ s.run [.release 184, .release 144] = .ok u₂ ∧
      u₁.Same u₂ ∧ u₁.heap.blocks = [⟨140, u₁.heap.currentSize - 144, false⟩] := by
  have hPair : rehearse (⟨240⟩ : Cap) { chunkSize := 96 } [.allocate 8, .allocate 8]
      (fun s => s.live.map Grant.pointer == [184, 144]) = true := by
    decide +kernel
  obtain ⟨h, s, hBuild, hPermits, hRun, hCheck⟩ := exists_of_rehearse hPair
  have hPointers := eq_of_beq hCheck
  have hLive : ∀ p ∈ [144, 184], ∃ g ∈ s.live, g.pointer = p := by
    intro p hp
    rw [← List.mem_map, hPointers]
    exact (List.Perm.swap 184 144 []).mem_iff.mp hp
  have hAll : ∀ g ∈ s.live, g.pointer ∈ [144, 184] := by
    intro g hg
    refine (List.Perm.swap 184 144 []).mem_iff.mpr ?_
    rw [← hPointers]
    exact List.mem_map_of_mem hg
  obtain ⟨u₁, u₂, hRun₁, hRun₂, _, hSame, hWhole⟩ := reaches_discharged rfl (by decide) (by decide)
    hBuild (Reaches.start.run hPermits hRun) (by decide) hLive (List.Perm.swap 184 144 [])
  exact ⟨s, u₁, u₂, hPointers, hRun₁, hRun₂, hSame, hWhole hAll⟩

end Session

end TaggedHeap
