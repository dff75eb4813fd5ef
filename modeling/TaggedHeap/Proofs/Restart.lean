import TaggedHeap.Proofs.Allotment
import TaggedHeap.Proofs.Passage

/-! # Starting over

An initialisation of a heap in use forgets what the heap was used for. All its space becomes one
free block, which has a chunk more if the arena can grow by one, and if it cannot there is nothing
half done: the heap is empty all the same. What comes of it depends on nothing but the size of the
arena, its cap and the chunk.
-/

namespace TaggedHeap

theorem Shape.chains_whole (size k : Nat) :
    (whole size).chains k = if Bucket.ofSize? size = some k then [140] else [] := rfl

namespace Plan

variable {S : Type}

theorem shape_formatted (p : Plan S) : p.formatted.shape = .unused (p.size - 144) := by
  rw [formatted, tally, reshape]

theorem size_formatted (p : Plan S) : p.formatted.size = p.size := by
  rw [formatted, tally, reshape]

theorem supply_formatted (p : Plan S) : p.formatted.supply = p.supply := by
  rw [formatted, tally, reshape]

theorem metrics_formatted (p : Plan S) : p.formatted.metrics = {} := by
  rw [formatted, tally, reshape]

end Plan

namespace Heap

/-- All the space of the heap is one free block, alone in its bucket, and this is what has been
counted. -/
structure Vacant {S : Type} (h : Heap S) (space : Nat) (metrics : Metrics) : Prop where
  arena : h.currentSize = 144 + space
  blocks : h.blocks = [⟨140, space, false⟩]
  bucket : ∃ k < 32, Bucket.ofSize? space = some k
  chains : ∀ k < 32, h.chain k = if Bucket.ofSize? space = some k then [140] else []
  slots : ∀ k < 32, h.memory.word (4 * k) = if Bucket.ofSize? space = some k then 140 else 0
  metrics : h.metrics = metrics
  verified : h.verify = .ok (.ok ())

/-- What starting over comes to in an arena of `size` bytes with a cap: a chunk more, or no more. -/
structure Restarts {S : Type} (cap chunk size : Nat) (answer : Except HeapError Unit)
    (h' : Heap S) : Prop where
  space : 144 < size
  ok_iff : answer = .ok () ↔ size + chunk ≤ 2 ^ 31 ∧ size + chunk ≤ cap
  done : answer = .ok () → h'.Vacant (size - 144 + chunk) { arenaGrowths := 1 }
  refused : answer ≠ .ok () → answer = .error .outOfMemory ∧ h'.Vacant (size - 144) {}

section Vacancy

variable {S : Type} {h h' g g' : Heap S} {space size cap chunk : Nat} {metrics : Metrics}
  {answer answer' : Except HeapError Unit}

theorem vacant_of_whole (hRest : h.memory.AtRest (.whole space)) (hMetrics : h.metrics = metrics) :
    h.Vacant space metrics := by
  have hMem : (⟨140, space, false⟩ : Block) ∈ (Shape.whole space).blocks := List.mem_singleton_self _
  constructor
  · have hStop : 140 + space = h.memory.size - 4 := hRest.shows.tiling.2.2.2
    have hLow := hRest.shows.le_size
    change h.memory.size = 144 + space
    omega
  · exact hRest.shows.blocks
  · exact hRest.shows.bucketOf hMem
  · intro k hk
    rw [chain_eq hRest.shows hk, Shape.chains_whole]
  · intro k hk
    have hThread := hRest.shows.thread k hk
    rw [Shape.chains_whole] at hThread
    split
    · rename_i hBucket
      rw [if_pos hBucket] at hThread
      exact hThread.2.1
    · rename_i hBucket
      rw [if_neg hBucket] at hThread
      exact hThread
  · exact hMetrics
  · exact Memory.verify_eq_ok_iff.mpr ⟨_, hRest.orderly⟩

theorem Vacant.alike (h₁ : h.Vacant space metrics) (h₂ : g.Vacant space metrics) :
    h.blocks = g.blocks ∧ (∀ k < 32, h.chain k = g.chain k) ∧ h.metrics = g.metrics :=
  ⟨h₁.blocks.trans h₂.blocks.symm, fun k hk => (h₁.chains k hk).trans (h₂.chains k hk).symm,
    h₁.metrics.trans h₂.metrics.symm⟩

/-- Size, cap and chunk leave no choice. -/
theorem Restarts.unique (h₁ : Restarts cap chunk size answer h')
    (h₂ : Restarts cap chunk size answer' g') : answer = answer' ∧ h'.blocks = g'.blocks ∧
      (∀ k < 32, h'.chain k = g'.chain k) ∧ h'.metrics = g'.metrics := by
  by_cases hOk : answer = .ok ()
  · have hOk' := h₂.ok_iff.mpr (h₁.ok_iff.mp hOk)
    exact ⟨hOk.trans hOk'.symm, (h₁.done hOk).alike (h₂.done hOk')⟩
  · have hNot : answer' ≠ .ok () := fun hOk' => hOk (h₁.ok_iff.mpr (h₂.ok_iff.mp hOk'))
    obtain ⟨hError, hVacant⟩ := h₁.refused hOk
    obtain ⟨hError', hVacant'⟩ := h₂.refused hNot
    exact ⟨hError.trans hError'.symm, hVacant.alike hVacant'⟩

end Vacancy

variable {h : Heap Cap} {p : Plan Cap} {cap : Nat}

theorem Follows.restarts (hFollows : h.Follows p) (hConfig : p.config.Roomy)
    (hSupply : p.supply = ⟨cap⟩) (hSpace : 144 < p.size) : ∃ answer h',
      h.init = .ok (answer, h') ∧ Restarts cap p.config.chunkSize p.size answer h' := by
  obtain ⟨h', hRun, hFollows'⟩ := hFollows.init hConfig
  refine ⟨_, h', hRun, ?_⟩
  rw [Plan.init] at hFollows' ⊢
  have hSupply' := p.supply_formatted.trans hSupply
  by_cases hRoom : p.size + p.config.chunkSize ≤ 2 ^ 31 ∧ p.size + p.config.chunkSize ≤ cap
  · have hFits : p.formatted.size + p.config.chunkSize ≤ 2 ^ 31 ∧
        p.formatted.size + p.config.chunkSize ≤ cap := by rwa [p.size_formatted]
    obtain ⟨_, q, hExtend, hShape, _, hMetrics⟩ := extend_of_room hSupply' hFits.1 hFits.2
    rw [hExtend] at hFollows' ⊢
    rw [p.shape_formatted, p.size_formatted, Shape.append,
      show p.size - 4 = 140 + (p.size - 144) by omega, Shape.settle_unused] at hShape
    rw [p.metrics_formatted] at hMetrics
    refine ⟨hSpace, by simp [hRoom], fun _ => ?_, fun hNot => absurd rfl hNot⟩
    exact vacant_of_whole (hShape ▸ hFollows'.atRest) (hFollows'.metrics.trans hMetrics)
  · have hFull : 2 ^ 31 < p.formatted.size + p.config.chunkSize ∨
        cap < p.formatted.size + p.config.chunkSize := by
      rw [p.size_formatted]
      omega
    obtain ⟨q, hExtend, hShape, _, hMetrics⟩ := extend_of_full hSupply' hFull
    rw [hExtend] at hFollows' ⊢
    rw [p.shape_formatted, Shape.unused, if_pos (by omega)] at hShape
    rw [p.metrics_formatted] at hMetrics
    refine ⟨hSpace, by simp [hRoom], fun hOk => ?_, fun _ => ⟨rfl, ?_⟩⟩
    · cases hOk
    · exact vacant_of_whole (hShape ▸ hFollows'.atRest) (hFollows'.metrics.trans hMetrics)

end Heap

namespace Session

variable {config : Config} {cap : Nat} {h : Heap Cap} {s : Session Cap}

theorem Reaches.restarts (hReach : Reaches ⟨h, []⟩ s) (hConfig : config.Roomy)
    (hBuild : Heap.ofArena (.fresh ⟨cap⟩) config = .ok (.ok h)) : ∃ answer h',
      s.heap.init = .ok (answer, h') ∧
        Heap.Restarts cap config.chunkSize s.heap.currentSize answer h' := by
  obtain ⟨t, hStart⟩ := steady_of_built hConfig hBuild
  obtain ⟨u, hSteady⟩ := hStart.reaches hReach
  obtain ⟨hSupply, hSame⟩ := hReach.set (Heap.set_of_built hBuild)
  have hBuilt : h.currentSize = 144 + config.chunkSize :=
    congrArg Account.size (Heap.ofArena_account hConfig hBuild)
  have hGrown : h.currentSize ≤ s.heap.currentSize := hStart.size_le hReach
  have hChunk := hConfig.chunk
  have hSpace : 144 < s.heap.currentSize := by omega
  have hRestarts := (Heap.follows_plan hSteady.atRest).restarts hSteady.config hSupply hSpace
  rwa [← hSame]

/-- A heap in use can always start over, and what comes of it does not depend on how it has been
used. -/
theorem reaches_restarts (hValid : config.validate = .ok ()) (hChunk : 32 ≤ config.chunkSize)
    (hWord : config.chunkSize < 2 ^ 64)
    (hBuild : Heap.ofArena (.fresh ⟨cap⟩) config = .ok (.ok h)) (hReach : Reaches ⟨h, []⟩ s) :
    ∃ answer h', s.heap.init = .ok (answer, h') ∧
      Heap.Restarts cap config.chunkSize s.heap.currentSize answer h' ∧
      ∀ u, Reaches ⟨h, []⟩ u → u.heap.currentSize = s.heap.currentSize →
        ∃ h'', u.heap.init = .ok (answer, h'') ∧ h''.blocks = h'.blocks ∧
          (∀ k < 32, h''.chain k = h'.chain k) ∧ h''.metrics = h'.metrics := by
  have hConfig : config.Roomy := ⟨hValid, hChunk, hWord⟩
  obtain ⟨answer, h', hRun, hRestarts⟩ := hReach.restarts hConfig hBuild
  refine ⟨answer, h', hRun, hRestarts, fun u hReach' hSize => ?_⟩
  obtain ⟨answer', h'', hRun', hRestarts'⟩ := hReach'.restarts hConfig hBuild
  rw [hSize] at hRestarts'
  obtain ⟨rfl, hAlike⟩ := hRestarts'.unique hRestarts
  exact ⟨h'', hRun', hAlike⟩

theorem reaches_restarts_twice : ∃ (s u : Session Cap) (h₁ h₂ : Heap Cap),
    s.heap.currentSize = 240 ∧ s.heap.init = .ok (.ok (), h₁) ∧
      h₁.Vacant 192 { arenaGrowths := 1 } ∧ s.step .init = .ok u ∧
      u.heap.init = .ok (.error .outOfMemory, h₂) ∧ h₂.Vacant 192 {} := by
  have hUsed : rehearse (⟨336⟩ : Cap) { chunkSize := 96 } [.allocate 8]
      (fun s => s.heap.currentSize == 240) = true := by
    decide +kernel
  obtain ⟨h, s, hBuild, hPermits, hRun, hCheck⟩ := exists_of_rehearse hUsed
  have hSize := eq_of_beq hCheck
  have hReach := Reaches.start.run hPermits hRun
  obtain ⟨answer, h₁, hInit, hRestarts, _⟩ := reaches_restarts rfl (by decide) (by decide) hBuild
    hReach
  rw [hSize] at hRestarts
  obtain rfl := hRestarts.ok_iff.mpr ⟨by decide, by decide⟩
  have hStep : s.step .init = .ok ⟨h₁, []⟩ := by
    rw [step, hInit]
    rfl
  have hVacant := hRestarts.done rfl
  obtain ⟨answer', h₂, hInit', hRestarts', _⟩ := reaches_restarts rfl (by decide) (by decide) hBuild
    (hReach.step (r := .init) trivial hStep)
  rw [show h₁.currentSize = 336 from hVacant.arena] at hRestarts'
  have hNot : answer' ≠ .ok () := fun hOk => absurd (hRestarts'.ok_iff.mp hOk).2 (by decide)
  obtain ⟨rfl, hVacant'⟩ := hRestarts'.refused hNot
  exact ⟨s, ⟨h₁, []⟩, h₁, h₂, hSize, hInit, hVacant, hStep, hInit', hVacant'⟩

end Session

end TaggedHeap
