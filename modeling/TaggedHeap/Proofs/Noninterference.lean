import TaggedHeap.Proofs.Guarantees
import TaggedHeap.Proofs.Refinement

/-! # What is written does not matter

Two users of one kind of heap make the same requests, but each writes what he likes through his live
pointers. Both heaps follow one plan all the way, so the two users get the same answers and see the
same blocks, chains and metrics: nothing of what one of them has written shows.
-/

namespace TaggedHeap

/-- The answer to a request, and the heap after it. -/
def Heap.perform {S : Type} [Supply S] (h : Heap S) : Request → Checked (Outcome S (Option Nat))
  | .allocate size => do
    let (answer, h) ← h.allocate size
    return (.ok answer, h)
  | .tryAllocate size => do
    let (answer, h) ← h.tryAllocate size
    return (answer.map some, h)
  | .release p => do
    let (answer, h) ← h.release p
    return (answer.map fun _ => none, h)
  | .reallocate pointer size => do
    let (answer, h) ← h.reallocate pointer size
    return (.ok answer, h)
  | .tryReallocate pointer size => h.tryReallocate pointer size
  | .write p start data => do
    let (answer, h) ← h.writePayload p start data
    return (answer.map fun _ => none, h)
  | .init => do
    let (answer, h) ← h.init
    return (answer.map fun _ => none, h)

/-- What a request comes down to on a plan, which a write leaves as it is. -/
def Plan.perform {S : Type} [Supply S] (p : Plan S) :
    Request → Except HeapError (Option Nat) × Plan S
  | .allocate size => (.ok (p.tryAllocate size).1.toOption, (p.tryAllocate size).2)
  | .tryAllocate size => ((p.tryAllocate size).1.map some, (p.tryAllocate size).2)
  | .release pointer => ((p.release pointer).1.map fun _ => none, (p.release pointer).2)
  | .reallocate pointer size =>
    (.ok (p.tryReallocate pointer size).1.toOption.join, (p.tryReallocate pointer size).2)
  | .tryReallocate pointer size => p.tryReallocate pointer size
  | .write _ _ _ => (.ok none, p)
  | .init => (p.init.1.map fun _ => none, p.init.2)

namespace Session

variable {S : Type}

/-- The pointer is live or that of a free block, or it cannot be one: it is out of range or
misaligned. -/
def Names (s : Session S) (pointer : Nat) : Prop :=
  (∃ g ∈ s.live, g.pointer = pointer) ∨
    (∃ b ∈ s.heap.blocks, b.allocated = false ∧ pointer = b.offset + 4) ∨
    pointer < 144 ∨ s.heap.currentSize ≤ pointer + 4 ∨ pointer % 8 ≠ 0

/-- The request names its pointers, and writes through live ones only. -/
def Admits (s : Session S) : Request → Prop
  | .allocate _ | .tryAllocate _ | .init => True
  | .release p => s.Names p
  | .reallocate pointer _ | .tryReallocate pointer _ => ∀ p ∈ pointer, s.Names p
  | .write p start data => ∃ g ∈ s.live, g.pointer = p ∧ start + data.size ≤ g.usable

/-- The pairs of sessions that two users come to from one, by the same requests and by writes of
their own. -/
inductive Parallel [Supply S] (s : Session S) : Session S → Session S → Prop where
  | start : Parallel s s s
  | both {t₁ t₂ u₁ u₂ : Session S} {r : Request} (hPair : Parallel s t₁ t₂) (hAdmits : t₁.Admits r)
      (hLeft : t₁.step r = .ok u₁) (hRight : t₂.step r = .ok u₂) : Parallel s u₁ u₂
  | left {t₁ t₂ u₁ : Session S} {p start : Nat} {data : ByteArray} (hPair : Parallel s t₁ t₂)
      (hAdmits : t₁.Admits (.write p start data)) (hLeft : t₁.step (.write p start data) = .ok u₁) :
      Parallel s u₁ t₂
  | right {t₁ t₂ u₂ : Session S} {p start : Nat} {data : ByteArray} (hPair : Parallel s t₁ t₂)
      (hAdmits : t₂.Admits (.write p start data))
      (hRight : t₂.step (.write p start data) = .ok u₂) :
      Parallel s t₁ u₂

/-- The same can be seen of two sessions without a look into the payloads. -/
structure Alike (s t : Session S) : Prop where
  pointers : ∀ p, (∃ g ∈ s.live, g.pointer = p) ↔ ∃ g ∈ t.live, g.pointer = p
  size : s.heap.currentSize = t.heap.currentSize
  blocks : s.heap.blocks = t.heap.blocks
  chains : ∀ k < 32, s.heap.memory.chain s.heap.currentSize k =
    t.heap.memory.chain t.heap.currentSize k
  metrics : s.heap.metrics = t.heap.metrics
  journal : s.heap.journal = t.heap.journal

/-- The heap follows the plan, and the live pointers are those of the blocks of the plan. -/
structure Follows (s : Session S) (p : Plan S) : Prop where
  heap : s.heap.Follows p
  steady : s.Steady p.shape

section Step

variable {s u : Session S} {h : Heap S}

theorem heap_of_enlist {live : List Grant} {p size : Nat} {written : Nat → Option UInt8}
    (hEnlist : enlist live h p size written = .ok u) : u.heap = h := by
  rw [enlist, bind_eq_ok_iff] at hEnlist
  obtain ⟨_, _, hEq⟩ := hEnlist
  cases hEq
  rfl

/-- A session that goes on with the heap of an operation has the heap of that operation. -/
theorem run_of_bind {α : Type} {run : Checked (α × Heap S)}
    {next : α × Heap S → Checked (Session S)}
    (hStep : run >>= next = .ok u) (hNext : ∀ a h, next (a, h) = .ok u → u.heap = h) :
    ∃ a, run = .ok (a, u.heap) := by
  rw [bind_eq_ok_iff] at hStep
  obtain ⟨⟨a, h⟩, hRun, hEq⟩ := hStep
  refine ⟨a, ?_⟩
  rw [hRun, hNext a h hEq]

variable [Supply S]

/-- A step performs the request on the heap. -/
theorem perform_of_step {r : Request} (hStep : s.step r = .ok u) :
    ∃ answer, s.heap.perform r = .ok (answer, u.heap) := by
  cases r with
  | allocate size =>
    obtain ⟨answer, hRun⟩ := run_of_bind hStep fun answer h hEq => by
      cases answer with
      | some p => exact heap_of_enlist hEq
      | none =>
        cases hEq
        rfl
    exact ⟨_, by rw [Heap.perform, hRun]; rfl⟩
  | tryAllocate size =>
    obtain ⟨answer, hRun⟩ := run_of_bind hStep fun answer h hEq => by
      cases answer with
      | ok p => exact heap_of_enlist hEq
      | error error =>
        cases hEq
        rfl
    exact ⟨_, by rw [Heap.perform, hRun]; rfl⟩
  | release p =>
    obtain ⟨answer, hRun⟩ := run_of_bind hStep fun answer h hEq => by
      cases answer with
      | ok _ =>
        cases hEq
        rfl
      | error error =>
        cases hEq
        rfl
    exact ⟨_, by rw [Heap.perform, hRun]; rfl⟩
  | reallocate pointer size =>
    obtain ⟨answer, hRun⟩ := run_of_bind hStep fun answer h hEq => by
      cases answer with
      | some p => exact heap_of_enlist hEq
      | none =>
        cases hEq
        rfl
    exact ⟨_, by rw [Heap.perform, hRun]; rfl⟩
  | tryReallocate pointer size =>
    obtain ⟨answer, hRun⟩ := run_of_bind hStep fun answer h hEq => by
      rcases answer with error | none | p
      · cases hEq
        rfl
      · cases hEq
        rfl
      · exact heap_of_enlist hEq
    exact ⟨answer, hRun⟩
  | write p start data =>
    obtain ⟨answer, hRun⟩ := run_of_bind hStep fun answer h hEq => by
      cases answer with
      | ok _ =>
        cases hEq
        rfl
      | error error =>
        cases hEq
        rfl
    exact ⟨_, by rw [Heap.perform, hRun]; rfl⟩
  | init =>
    obtain ⟨answer, hRun⟩ := run_of_bind hStep fun answer h hEq => by
      cases hEq
      rfl
    exact ⟨_, by rw [Heap.perform, hRun]; rfl⟩

end Step

namespace Follows

variable {s t : Session S} {p : Plan S} {pointer : Nat}

theorem block_of_live {g : Grant} (hFollows : s.Follows p) (hg : g ∈ s.live) :
    ∃ b ∈ p.shape.blocks,
      b.allocated = true ∧ g.pointer = b.offset + 4 ∧ g.usable + 8 = b.size := by
  obtain ⟨b, hb, hAllocated, hHolds⟩ := hFollows.steady.grant g hg
  exact ⟨b, hb, hAllocated, hHolds.pointer, hHolds.usable⟩

theorem live_iff (hFollows : s.Follows p) : (∃ g ∈ s.live, g.pointer = pointer) ↔
    ∃ b ∈ p.shape.blocks, b.allocated = true ∧ pointer = b.offset + 4 := by
  constructor
  · rintro ⟨g, hg, rfl⟩
    obtain ⟨b, hb, hAllocated, hPointer, _⟩ := hFollows.block_of_live hg
    exact ⟨b, hb, hAllocated, hPointer⟩
  · rintro ⟨b, hb, hAllocated, rfl⟩
    exact hFollows.steady.block b hb hAllocated

theorem blocks (hFollows : s.Follows p) : s.heap.blocks = p.shape.blocks :=
  hFollows.heap.atRest.shows.blocks

theorem names_iff (hFollows : s.Follows p) : s.Names pointer ↔ p.Names pointer := by
  have hSize : s.heap.currentSize = p.size := hFollows.heap.size
  unfold Session.Names Plan.Names
  rw [hFollows.live_iff, hFollows.blocks, hSize, ← or_assoc]
  refine or_congr_left ⟨?_, ?_⟩
  · rintro (⟨b, hb, _, hPointer⟩ | ⟨b, hb, _, hPointer⟩)
    · exact ⟨b, hb, hPointer⟩
    · exact ⟨b, hb, hPointer⟩
  · rintro ⟨b, hb, hPointer⟩
    cases hAllocated : b.allocated with
    | true => exact Or.inl ⟨b, hb, hAllocated, hPointer⟩
    | false => exact Or.inr ⟨b, hb, hAllocated, hPointer⟩

theorem knows (hFollows : s.Follows p) (hNames : s.Names pointer) : s.Knows pointer := by
  have hBlock := hFollows.heap.blockOf (hFollows.names_iff.mp hNames)
  cases hOwner : p.shape.owner pointer with
  | error error =>
    rw [hOwner] at hBlock
    exact Or.inr ⟨error, hBlock⟩
  | ok b =>
    obtain ⟨hb, hAllocated, hPointer⟩ := hFollows.heap.atRest.of_owner hOwner
    exact Or.inl (hFollows.live_iff.mpr ⟨b, hb, hAllocated, hPointer⟩)

theorem allows {r : Request} (hFollows : s.Follows p) (hAdmits : s.Admits r) : s.Allows r := by
  cases r with
  | release pointer => exact hFollows.knows hAdmits
  | reallocate pointer size => exact fun q hq => hFollows.knows (hAdmits q hq)
  | tryReallocate pointer size => exact fun q hq => hFollows.knows (hAdmits q hq)
  | _ => exact hAdmits

/-- What fits through a live pointer of one user fits through one of the other. -/
theorem fits {size : Nat} (hFollows : s.Follows p) (hFollows' : t.Follows p)
    (hFits : ∃ g ∈ s.live, g.pointer = pointer ∧ size ≤ g.usable) :
    ∃ g ∈ t.live, g.pointer = pointer ∧ size ≤ g.usable := by
  obtain ⟨g, hg, rfl, hSize⟩ := hFits
  obtain ⟨b, hb, hAllocated, hPointer, hUsable⟩ := hFollows.block_of_live hg
  obtain ⟨f, hf, hPointer'⟩ := hFollows'.steady.block b hb hAllocated
  obtain ⟨c, hc, _, hPointer'', hUsable'⟩ := hFollows'.block_of_live hf
  have hSame := hFollows.heap.atRest.shows.tiling.eq_of_offset hb hc (by omega)
  subst hSame
  exact ⟨f, hf, by omega, by omega⟩

/-- Users of heaps that follow the same plan have the same requests to choose from. -/
theorem admits_iff {r : Request} (hFollows : s.Follows p) (hFollows' : t.Follows p) :
    s.Admits r ↔ t.Admits r := by
  have hNames : ∀ q, s.Names q ↔ t.Names q :=
    fun q => hFollows.names_iff.trans hFollows'.names_iff.symm
  cases r with
  | release pointer => exact hNames pointer
  | reallocate pointer size => exact forall₂_congr fun q _ => hNames q
  | tryReallocate pointer size => exact forall₂_congr fun q _ => hNames q
  | write pointer start data => exact ⟨hFollows.fits hFollows', hFollows'.fits hFollows⟩
  | _ => exact Iff.rfl

theorem alike (hFollows : s.Follows p) (hFollows' : t.Follows p) : s.Alike t where
  pointers _ := hFollows.live_iff.trans hFollows'.live_iff.symm
  size := hFollows.heap.size.trans hFollows'.heap.size.symm
  blocks := hFollows.blocks.trans hFollows'.blocks.symm
  chains _ hk :=
    (hFollows.heap.atRest.shows.chain hk).trans (hFollows'.heap.atRest.shows.chain hk).symm
  metrics := hFollows.heap.metrics.trans hFollows'.heap.metrics.symm
  journal := hFollows.heap.journal.trans hFollows'.heap.journal.symm

variable [Supply S]

/-- A request that is admitted is answered as the plan says. -/
theorem perform {r : Request} (hFollows : s.Follows p) (hAdmits : s.Admits r) :
    Heap.Realizes (s.heap.perform r) (p.perform r).1 (p.perform r).2 := by
  have hConfig : p.config.Roomy := hFollows.heap.config ▸ hFollows.steady.config
  have hNames (q : Nat) : s.Names q → p.Names q := hFollows.names_iff.mp
  cases r with
  | allocate size =>
    obtain ⟨h, hRun, hHeap⟩ := hFollows.heap.tryAllocate hConfig size
    exact ⟨h, by rw [Heap.perform, Heap.allocate, hRun]; rfl, hHeap⟩
  | tryAllocate size =>
    obtain ⟨h, hRun, hHeap⟩ := hFollows.heap.tryAllocate hConfig size
    exact ⟨h, by rw [Heap.perform, hRun]; rfl, hHeap⟩
  | release pointer =>
    obtain ⟨h, hRun, hHeap⟩ := hFollows.heap.release (hNames pointer hAdmits)
    exact ⟨h, by rw [Heap.perform, hRun]; rfl, hHeap⟩
  | reallocate pointer size =>
    obtain ⟨h, hRun, hHeap⟩ :=
      hFollows.heap.tryReallocate hConfig size fun q hq => hNames q (hAdmits q hq)
    exact ⟨h, by rw [Heap.perform, Heap.reallocate, hRun]; rfl, hHeap⟩
  | tryReallocate pointer size =>
    exact hFollows.heap.tryReallocate hConfig size fun q hq => hNames q (hAdmits q hq)
  | write pointer start data =>
    obtain ⟨g, hg, rfl, hFits⟩ := hAdmits
    obtain ⟨b, hb, hAllocated, hPointer, hUsable⟩ := hFollows.block_of_live hg
    obtain ⟨n, hRun, hRest, hAgree, _⟩ := Heap.writePayload_atRest hFollows.heap.atRest hb
      hAllocated start data (by omega)
    rw [hPointer]
    exact ⟨_, by rw [Heap.perform, hRun]; rfl, hFollows.heap.reshape hRest hAgree.size⟩
  | init =>
    obtain ⟨h, hRun, hHeap⟩ := hFollows.heap.init hConfig
    exact ⟨h, by rw [Heap.perform, hRun]; rfl, hHeap⟩

theorem step {r : Request} (hFollows : s.Follows p) (hAdmits : s.Admits r) :
    ∃ s', s.step r = .ok s' ∧ s.heap.perform r = .ok ((p.perform r).1, s'.heap) ∧
      s'.Follows (p.perform r).2 := by
  obtain ⟨s', u, hStep, hSteady⟩ := hFollows.steady.step (hFollows.allows hAdmits)
  obtain ⟨h, hRun, hHeap⟩ := hFollows.perform hAdmits
  obtain ⟨answer, hRun'⟩ := perform_of_step hStep
  rw [hRun] at hRun'
  cases hRun'
  -- What the session keeps and what the plan says are about one shape.
  have hShape := hSteady.atRest.shows.unique hHeap.atRest.shows
  exact ⟨s', hStep, hRun, hHeap, hShape ▸ hSteady⟩

end Follows

variable [Supply S] {s t₁ t₂ : Session S} {p : Plan S}

/-- After the same requests both heaps follow the plan that these requests lead to. -/
theorem Parallel.follows (hPair : Parallel s t₁ t₂) (hFollows : s.Follows p) :
    ∃ q, t₁.Follows q ∧ t₂.Follows q := by
  induction hPair with
  | start => exact ⟨p, hFollows, hFollows⟩
  | both _ hAdmits hLeft hRight ih =>
    obtain ⟨q, hq₁, hq₂⟩ := ih
    obtain ⟨u₁, hStep₁, _, hFollows₁⟩ := hq₁.step hAdmits
    obtain ⟨u₂, hStep₂, _, hFollows₂⟩ := hq₂.step ((hq₁.admits_iff hq₂).mp hAdmits)
    rw [hLeft] at hStep₁
    rw [hRight] at hStep₂
    cases hStep₁
    cases hStep₂
    exact ⟨_, hFollows₁, hFollows₂⟩
  | left _ hAdmits hLeft ih =>
    obtain ⟨q, hq₁, hq₂⟩ := ih
    obtain ⟨u₁, hStep₁, _, hFollows₁⟩ := hq₁.step hAdmits
    rw [hLeft] at hStep₁
    cases hStep₁
    exact ⟨q, hFollows₁, hq₂⟩
  | right _ hAdmits hRight ih =>
    obtain ⟨q, hq₁, hq₂⟩ := ih
    obtain ⟨u₂, hStep₂, _, hFollows₂⟩ := hq₂.step hAdmits
    rw [hRight] at hStep₂
    cases hStep₂
    exact ⟨q, hq₁, hFollows₂⟩

theorem follows_of_built {supply : S} {config : Config} {h : Heap S} (hConfig : config.Roomy)
    (hBuild : Heap.ofArena (.fresh supply) config = .ok (.ok h)) :
    ∃ p, Follows ⟨h, []⟩ p := by
  obtain ⟨t, hSteady⟩ := steady_of_built hConfig hBuild
  exact ⟨⟨t, h.memory.size, h.arena.supply, h.config, h.metrics, h.journal⟩,
    ⟨hSteady.atRest, rfl, rfl, rfl, rfl, rfl⟩, hSteady⟩

/-- Whatever two users write, they see the same of their heaps, and the next request gets the same
answer from both. -/
theorem parallel_alike {supply : S} {config : Config} {h : Heap S}
    (hValid : config.validate = .ok ()) (hChunk : 32 ≤ config.chunkSize)
    (hWord : config.chunkSize < 2 ^ 64)
    (hBuild : Heap.ofArena (.fresh supply) config = .ok (.ok h))
    (hPair : Parallel ⟨h, []⟩ t₁ t₂) :
    t₁.Alike t₂ ∧ ∀ r, t₁.Admits r → ∃ answer u₁ u₂,
      t₁.heap.perform r = .ok (answer, u₁.heap) ∧ t₁.step r = .ok u₁ ∧
      t₂.heap.perform r = .ok (answer, u₂.heap) ∧ t₂.step r = .ok u₂ := by
  obtain ⟨p, hStart⟩ := follows_of_built ⟨hValid, hChunk, hWord⟩ hBuild
  obtain ⟨q, hq₁, hq₂⟩ := hPair.follows hStart
  refine ⟨hq₁.alike hq₂, fun r hAdmits => ?_⟩
  obtain ⟨u₁, hStep₁, hRun₁, _⟩ := hq₁.step hAdmits
  obtain ⟨u₂, hStep₂, hRun₂, _⟩ := hq₂.step ((hq₁.admits_iff hq₂).mp hAdmits)
  exact ⟨_, u₁, u₂, hRun₁, hStep₁, hRun₂, hStep₂⟩

theorem parallel_alike_byte : ∃ t₁ t₂ : Session Cap, t₁.heap.memory.byte 144 = 1 ∧
    t₂.heap.memory.byte 144 = 2 ∧ t₁.Alike t₂ ∧ ∃ answer h₁ h₂,
      t₁.heap.perform (.release 144) = .ok (answer, h₁) ∧
      t₂.heap.perform (.release 144) = .ok (answer, h₂) := by
  have hWritten : rehearse (⟨240⟩ : Cap) { chunkSize := 96 } [.allocate 8] (fun s =>
      s.live.map (fun g => (g.pointer, g.usable)) == [(144, 32)] &&
        (s.step (.write 144 0 ⟨#[1]⟩)).toOption.any fun t₁ =>
          (s.step (.write 144 0 ⟨#[2]⟩)).toOption.any fun t₂ =>
            t₁.live.map Grant.pointer == [144] && t₁.heap.memory.byte 144 == 1 &&
              t₂.heap.memory.byte 144 == 2) = true := by
    decide +kernel
  obtain ⟨h, s, hBuild, _, hFirst, hCheck⟩ := exists_of_rehearse hWritten
  rw [run_singleton] at hFirst
  rw [Bool.and_eq_true, beq_iff_eq] at hCheck
  obtain ⟨hLive, hWrites⟩ := hCheck
  obtain ⟨t₁, hLeft, hWrites⟩ := exists_of_any hWrites
  obtain ⟨t₂, hRight, hBytes⟩ := exists_of_any hWrites
  simp only [Bool.and_eq_true, beq_iff_eq] at hBytes
  obtain ⟨⟨hLive₁, hByte₁⟩, hByte₂⟩ := hBytes
  obtain ⟨g, hg, hGrant⟩ := List.mem_map.mp (hLive ▸ List.mem_singleton_self (144, 32))
  rw [Prod.mk.injEq] at hGrant
  have hAdmits : ∀ x, s.Admits (.write 144 0 ⟨#[x]⟩) := fun x =>
    ⟨g, hg, hGrant.1, by rw [hGrant.2]; exact (show 0 + 1 ≤ 32 by decide)⟩
  obtain ⟨g₁, hg₁, hPointer⟩ := List.mem_map.mp (hLive₁ ▸ List.mem_singleton_self 144)
  obtain ⟨hAlike, hNext⟩ := parallel_alike rfl (by decide) (by decide) hBuild
    (.right (.left (.both .start (r := .allocate 8) trivial hFirst hFirst) (hAdmits 1) hLeft)
      (hAdmits 2) hRight)
  obtain ⟨answer, u₁, u₂, hRun₁, _, hRun₂, _⟩ :=
    hNext (.release 144) (Or.inl ⟨g₁, hg₁, hPointer⟩)
  exact ⟨t₁, t₂, hByte₁, hByte₂, hAlike, answer, u₁.heap, u₂.heap, hRun₁, hRun₂⟩

end Session

end TaggedHeap
