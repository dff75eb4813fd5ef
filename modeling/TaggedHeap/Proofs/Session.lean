import TaggedHeap.Proofs.Operations
import TaggedHeap.Proofs.Sound

/-! # Sessions

A session is a heap together with what its user knows: the pointers that are live, what they were
asked for, and what was last written through them. A user may ask for anything, write where it is
allowed to, and give back or move what is live; it may also try pointers that the heap rejects.
However long a session gets, the live pointers are those of the allocated blocks.
-/

namespace TaggedHeap

structure Grant where
  pointer : Nat
  /-- The size that was asked for. -/
  requested : Nat
  /-- The size that was there to be used when the pointer was handed out. -/
  usable : Nat
  /-- What was last written through the pointer, or copied there when it was handed out. -/
  written : Nat → Option UInt8

/-- Notes a write from the `start`-th byte on. -/
def Grant.record (g : Grant) (start : Nat) (data : ByteArray) : Grant :=
  { g with written := fun j =>
      if h : start ≤ j ∧ j < start + data.size then some data[j - start] else g.written j }

structure Session (S : Type) where
  heap : Heap S
  live : List Grant

inductive Request where
  | allocate (size : Nat)
  | tryAllocate (size : Nat)
  | release (pointer : Nat)
  | reallocate (pointer : Option Nat) (size : Nat)
  | tryReallocate (pointer : Option Nat) (size : Nat)
  | write (pointer start : Nat) (data : ByteArray)
  | init

namespace Session

variable {S : Type}

/-- The live pointers without one. -/
def without (s : Session S) (pointer : Option Nat) : List Grant :=
  s.live.filter fun g => some g.pointer ≠ pointer

/-- What a reallocation to `size` bytes copies. -/
def copied (s : Session S) (pointer : Option Nat) (size j : Nat) : Option UInt8 :=
  if ∃ g ∈ s.live, some g.pointer = pointer ∧ j < min size g.usable then
    pointer.map fun p => s.heap.memory.byte (p + j)
  else none

/-- Adds a pointer that the heap has just handed out. -/
def enlist (live : List Grant) (h : Heap S) (pointer size : Nat) (written : Nat → Option UInt8) :
    Checked (Session S) := do
  let usable ← h.usableSize pointer
  return ⟨h, ⟨pointer, size, usable.toOption.getD 0, written⟩ :: live⟩

def step [Supply S] (s : Session S) : Request → Checked (Session S)
  | .allocate size => do
    match ← s.heap.allocate size with
    | (some p, h) => enlist s.live h p size fun _ => none
    | (none, h) => return ⟨h, s.live⟩
  | .tryAllocate size => do
    match ← s.heap.tryAllocate size with
    | (.ok p, h) => enlist s.live h p size fun _ => none
    | (.error _, h) => return ⟨h, s.live⟩
  | .release p => do
    match ← s.heap.release p with
    | (.ok (), h) => return ⟨h, s.without (some p)⟩
    | (.error _, h) => return ⟨h, s.live⟩
  | .reallocate pointer size => do
    match ← s.heap.reallocate pointer size with
    | (some p, h) => enlist (s.without pointer) h p size (s.copied pointer size)
    | (none, h) => return ⟨h, if size = 0 then s.without pointer else s.live⟩
  | .tryReallocate pointer size => do
    match ← s.heap.tryReallocate pointer size with
    | (.ok (some p), h) => enlist (s.without pointer) h p size (s.copied pointer size)
    | (.ok none, h) => return ⟨h, s.without pointer⟩
    | (.error _, h) => return ⟨h, s.live⟩
  | .write p start data => do
    match ← s.heap.writePayload p start data with
    | (.ok (), h) =>
      return ⟨h, s.live.map fun g => if g.pointer = p then g.record start data else g⟩
    | (.error _, h) => return ⟨h, s.live⟩
  | .init => do
    let (_, h) ← s.heap.init
    return ⟨h, []⟩

/-- The pointer is live, or the heap rejects it. -/
def Knows (s : Session S) (p : Nat) : Prop :=
  (∃ g ∈ s.live, g.pointer = p) ∨ s.heap.Rejects p

instance (s : Session S) (p : Nat) : Decidable (s.Knows p) := inferInstanceAs (Decidable (_ ∨ _))

def Allows (s : Session S) : Request → Prop
  | .allocate _ | .tryAllocate _ | .init => True
  | .release p => s.Knows p
  | .reallocate pointer _ | .tryReallocate pointer _ => ∀ p ∈ pointer, s.Knows p
  | .write p start data => ∃ g ∈ s.live, g.pointer = p ∧ start + data.size ≤ g.usable

instance (s : Session S) : (r : Request) → Decidable (s.Allows r)
  | .allocate _ | .tryAllocate _ | .init => .isTrue trivial
  | .release p => inferInstanceAs (Decidable (s.Knows p))
  | .reallocate pointer _ | .tryReallocate pointer _ =>
    inferInstanceAs (Decidable (∀ p ∈ pointer, s.Knows p))
  | .write p start data =>
    inferInstanceAs (Decidable (∃ g ∈ s.live, g.pointer = p ∧ start + data.size ≤ g.usable))

/-- The sessions that follow from one by any number of requests. -/
inductive Reaches [Supply S] (s : Session S) : Session S → Prop where
  | start : Reaches s s
  | step {t u : Session S} {r : Request} (hReach : Reaches s t) (hAllows : t.Allows r)
      (hStep : t.step r = .ok u) : Reaches s u

end Session

/-- A live pointer is that of a block, which holds what was written through it. -/
structure Grant.Holds (m : Memory) (g : Grant) (b : Block) : Prop where
  pointer : g.pointer = b.offset + 4
  usable : g.usable + 8 = b.size
  requested : g.requested ≤ g.usable
  written : ∀ j < g.usable, ∀ x ∈ g.written j, m.byte (g.pointer + j) = x

theorem Grant.Holds.keeps {m n : Memory} {g : Grant} {b : Block} (h : g.Holds m b)
    (hKeeps : m.Keeps n b) : g.Holds n b := by
  refine ⟨h.pointer, h.usable, h.requested, ?_⟩
  intro j hj x hx
  have hPointer := h.pointer
  have hUsable := h.usable
  rw [hKeeps _ (by omega) (by omega)]
  exact h.written j hj x hx

theorem Grant.Holds.record {m n : Memory} {g : Grant} {b : Block} {start : Nat} {data : ByteArray}
    (h : g.Holds m b) (hAgree : m.AgreeOff n fun j => g.pointer + start ≤ j ∧
      j < g.pointer + start + data.size)
    (hBytes : ∀ j, (hj : j < data.size) → n.byte (g.pointer + start + j) = data[j]) :
    (g.record start data).Holds n b := by
  refine ⟨h.pointer, h.usable, h.requested, ?_⟩
  intro j hj x hx
  change n.byte (g.pointer + j) = x
  change (if hj : start ≤ j ∧ j < start + data.size then some data[j - start] else g.written j) =
    some x at hx
  split at hx
  · rename_i hIn
    rw [show g.pointer + j = g.pointer + start + (j - start) by omega, hBytes (j - start) (by omega)]
    exact Option.some.inj hx
  · rename_i hOut
    rw [hAgree.byte _ (by omega)]
    exact h.written j hj x hx

namespace Session

variable {S : Type}

/-- The heap is at rest, and the live pointers are those of its allocated blocks. -/
structure Steady (s : Session S) (t : Shape) : Prop where
  atRest : s.heap.memory.AtRest t
  config : s.heap.config.Roomy
  nodup : (s.live.map Grant.pointer).Nodup
  grant : ∀ g ∈ s.live, ∃ b ∈ t.blocks, b.allocated = true ∧ g.Holds s.heap.memory b
  block : ∀ b ∈ t.blocks, b.allocated = true → ∃ g ∈ s.live, g.pointer = b.offset + 4

variable {s : Session S} {t u : Shape} {h : Heap S} {b c : Block} {g : Grant}

theorem mem_without {pointer : Option Nat} :
    g ∈ s.without pointer ↔ g ∈ s.live ∧ some g.pointer ≠ pointer := by
  rw [without, List.mem_filter, decide_eq_true_eq]

theorem without_none : s.without none = s.live :=
  List.filter_eq_self.mpr fun g _ => decide_eq_true (Option.some_ne_none g.pointer)

theorem copied_none (size j : Nat) : s.copied none size j = none := by
  unfold copied
  split
  · rfl
  · rfl

namespace Steady

theorem refuse (hSteady : s.Steady t) (hMemory : h.memory = s.heap.memory)
    (hConfig : h.config = s.heap.config) : Steady ⟨h, s.live⟩ t where
  atRest := hMemory ▸ hSteady.atRest
  config := hConfig ▸ hSteady.config
  nodup := hSteady.nodup
  grant g hg := by
    obtain ⟨b, hb, hAllocated, hHolds⟩ := hSteady.grant g hg
    refine ⟨b, hb, hAllocated, ?_⟩
    dsimp only
    rwa [hMemory]
  block := hSteady.block

theorem enlist {live : List Grant} {size : Nat} {written : Nat → Option UInt8}
    (hRest : h.memory.AtRest u) (hConfig : h.config.Roomy) (hb : b ∈ u.blocks)
    (hAllocated : b.allocated = true) (hRoom : size + 8 ≤ b.size)
    (hNodup : (live.map Grant.pointer).Nodup) (hFresh : ∀ g ∈ live, g.pointer ≠ b.offset + 4)
    (hGrant : ∀ g ∈ live, ∃ c ∈ u.blocks, c.allocated = true ∧ g.Holds h.memory c)
    (hBlock : ∀ c ∈ u.blocks, c.allocated = true → c = b ∨ ∃ g ∈ live, g.pointer = c.offset + 4)
    (hWritten : ∀ j, ∀ x ∈ written j, h.memory.byte (b.offset + 4 + j) = x) :
    ∃ s', Session.enlist live h (b.offset + 4) size written = .ok s' ∧ s'.Steady u := by
  have hBounds := hRest.shows.bounds hb
  refine ⟨⟨h, ⟨b.offset + 4, size, b.size - 8, written⟩ :: live⟩, ?_, hRest, hConfig, ?_, ?_, ?_⟩
  · rw [Session.enlist, Heap.usableSize_atRest hRest hb hAllocated, ok_bind]
    rfl
  · refine List.nodup_cons.mpr ⟨?_, hNodup⟩
    intro hMem
    obtain ⟨g, hg, hEq⟩ := List.mem_map.mp hMem
    exact hFresh g hg hEq
  · intro g hg
    rcases List.mem_cons.mp hg with rfl | hg
    · exact ⟨b, hb, hAllocated, rfl, by dsimp only; omega, by dsimp only; omega,
        fun j _ x hx => hWritten j x hx⟩
    · exact hGrant g hg
  · intro c hc hAllocatedC
    rcases hBlock c hc hAllocatedC with rfl | ⟨g, hg, hPointer⟩
    · exact ⟨_, List.mem_cons_self, rfl⟩
    · exact ⟨g, List.mem_cons_of_mem _ hg, hPointer⟩

theorem gain {size : Nat} (hSteady : s.Steady t) (hGains : s.heap.memory.Gains t b h.memory u)
    (hConfig : h.config = s.heap.config) (hRoom : size + 32 ≤ b.size) :
    ∃ s', Session.enlist s.live h (b.offset + 4) size (fun _ => none) = .ok s' ∧ s'.Steady u := by
  refine enlist hGains.atRest (hConfig ▸ hSteady.config)
    ((hGains.mem_iff b hGains.allocated).mpr (Or.inl rfl)) hGains.allocated (by omega)
    hSteady.nodup ?_ ?_ ?_ (fun _ _ hx => absurd hx (Option.not_mem_none _))
  · intro g hg
    obtain ⟨c, hc, hAllocated, hHolds⟩ := hSteady.grant g hg
    have hFresh := hGains.fresh c hc hAllocated
    have hPointer := hHolds.pointer
    omega
  · intro g hg
    obtain ⟨c, hc, hAllocated, hHolds⟩ := hSteady.grant g hg
    exact ⟨c, (hGains.mem_iff c hAllocated).mpr (Or.inr hc), hAllocated,
      hHolds.keeps (hGains.keeps c hc hAllocated)⟩
  · intro c hc hAllocated
    exact ((hGains.mem_iff c hAllocated).mp hc).imp_right fun hOld => hSteady.block c hOld hAllocated

theorem mem_without_iff (hSteady : s.Steady t) (hg : g ∈ s.live) (hHolds : g.Holds s.heap.memory c)
    (hc : c ∈ t.blocks) (hb : b ∈ t.blocks) :
    g ∈ s.without (some (b.offset + 4)) ↔ c ≠ b := by
  have hPointer := hHolds.pointer
  rw [mem_without, and_iff_right hg, not_iff_not, Option.some_inj]
  constructor
  · intro hEq
    exact hSteady.atRest.shows.tiling.eq_of_offset hc hb (by omega)
  · rintro rfl
    exact hPointer

theorem lose (hSteady : s.Steady t) (hb : b ∈ t.blocks)
    (hLoses : s.heap.memory.Loses t b h.memory u) (hConfig : h.config = s.heap.config) :
    Steady ⟨h, s.without (some (b.offset + 4))⟩ u where
  atRest := hLoses.atRest
  config := hConfig ▸ hSteady.config
  nodup := hSteady.nodup.sublist ((List.filter_sublist).map Grant.pointer)
  grant g hg := by
    have hLive := (mem_without.mp hg).1
    obtain ⟨c, hc, hAllocated, hHolds⟩ := hSteady.grant g hLive
    have hNe := (hSteady.mem_without_iff hLive hHolds hc hb).mp hg
    exact ⟨c, (hLoses.mem_iff c hAllocated).mpr ⟨hNe, hc⟩, hAllocated,
      hHolds.keeps (hLoses.keeps c hc hAllocated hNe)⟩
  block c hc hAllocated := by
    obtain ⟨hNe, hOld⟩ := (hLoses.mem_iff c hAllocated).mp hc
    obtain ⟨g, hg, hPointer⟩ := hSteady.block c hOld hAllocated
    refine ⟨g, mem_without.mpr ⟨hg, ?_⟩, hPointer⟩
    rw [ne_eq, Option.some_inj]
    intro hEq
    exact hNe (hSteady.atRest.shows.tiling.eq_of_offset hOld hb (by omega))

theorem move {size : Nat} (hSteady : s.Steady t) (hb : b ∈ t.blocks) (hAllocated : b.allocated = true)
    (hMoves : s.heap.memory.Moves t b c (min size (b.size - 8)) h.memory u)
    (hConfig : h.config = s.heap.config) (hRoom : size + 32 ≤ c.size) :
    ∃ s', Session.enlist (s.without (some (b.offset + 4))) h (c.offset + 4) size
      (s.copied (some (b.offset + 4)) size) = .ok s' ∧ s'.Steady u := by
  refine enlist hMoves.atRest (hConfig ▸ hSteady.config)
    ((hMoves.mem_iff c hMoves.allocated).mpr (Or.inl rfl)) hMoves.allocated (by omega)
    (hSteady.nodup.sublist ((List.filter_sublist).map Grant.pointer)) ?_ ?_ ?_ ?_
  · intro g hg
    obtain ⟨d, hd, hAllocatedD, hHolds⟩ := hSteady.grant g (mem_without.mp hg).1
    have hFresh := hMoves.fresh d hd hAllocatedD
    have hPointer := hHolds.pointer
    omega
  · intro g hg
    have hLive := (mem_without.mp hg).1
    obtain ⟨d, hd, hAllocatedD, hHolds⟩ := hSteady.grant g hLive
    have hNe := (hSteady.mem_without_iff hLive hHolds hd hb).mp hg
    exact ⟨d, (hMoves.mem_iff d hAllocatedD).mpr (Or.inr ⟨hNe, hd⟩), hAllocatedD,
      hHolds.keeps (hMoves.keeps d hd hAllocatedD hNe)⟩
  · intro d hd hAllocatedD
    refine ((hMoves.mem_iff d hAllocatedD).mp hd).imp_right fun hOld => ?_
    obtain ⟨g, hg, hPointer⟩ := hSteady.block d hOld.2 hAllocatedD
    refine ⟨g, mem_without.mpr ⟨hg, ?_⟩, hPointer⟩
    rw [ne_eq, Option.some_inj]
    intro hEq
    exact hOld.1 (hSteady.atRest.shows.tiling.eq_of_offset hOld.2 hb (by omega))
  · intro j x hx
    unfold copied at hx
    split at hx
    · rename_i hCopied
      obtain ⟨g, hg, hPointer, hj⟩ := hCopied
      obtain ⟨d, hd, _, hHolds⟩ := hSteady.grant g hg
      have hPointer' := hHolds.pointer
      have hUsable := hHolds.usable
      rw [Option.some_inj] at hPointer
      have hEq := hSteady.atRest.shows.tiling.eq_of_offset hd hb (by omega)
      subst hEq
      rw [Option.map_some, Option.mem_some_iff] at hx
      rw [hMoves.copy j (by omega), hx]
    · cases hx

theorem write {start : Nat} {data : ByteArray} {m : Memory} (hSteady : s.Steady t)
    (hb : b ∈ t.blocks) (hAllocated : b.allocated = true) (hRest : m.AtRest t)
    (hAgree : s.heap.memory.AgreeOff m fun j => b.offset + 4 + start ≤ j ∧
      j < b.offset + 4 + start + data.size)
    (hBytes : ∀ j, (hj : j < data.size) → m.byte (b.offset + 4 + start + j) = data[j])
    (hFits : start + data.size + 8 ≤ b.size) :
    Steady ⟨s.heap.withMemory m, s.live.map fun g =>
      if g.pointer = b.offset + 4 then g.record start data else g⟩ t := by
  have hPointers : (fun g : Grant => (if g.pointer = b.offset + 4 then g.record start data
      else g).pointer) = Grant.pointer := by
    funext g
    split
    · rfl
    · rfl
  have hMap : (s.live.map fun g => if g.pointer = b.offset + 4 then g.record start data
      else g).map Grant.pointer = s.live.map Grant.pointer := by
    rw [List.map_map]
    exact congrArg (List.map · s.live) hPointers
  refine ⟨hRest, hSteady.config, ?_, ?_, ?_⟩
  · rw [hMap]
    exact hSteady.nodup
  · intro g hg
    obtain ⟨f, hf, rfl⟩ := List.mem_map.mp hg
    obtain ⟨c, hc, hAllocatedC, hHolds⟩ := hSteady.grant f hf
    have hPointer := hHolds.pointer
    refine ⟨c, hc, hAllocatedC, ?_⟩
    split
    · rename_i hEq
      rw [← hEq] at hAgree hBytes
      exact hHolds.record hAgree hBytes
    · rename_i hNe
      refine hHolds.keeps fun j hLow hHigh => hAgree.byte j ?_
      rcases hSteady.atRest.shows.tiling.eq_or_apart hc hb with rfl | hApart
      · exact absurd hPointer hNe
      · omega
  · intro c hc hAllocatedC
    obtain ⟨g, hg, hPointer⟩ := hSteady.block c hc hAllocatedC
    refine ⟨_, List.mem_map.mpr ⟨g, hg, rfl⟩, ?_⟩
    exact (congrFun hPointers g).trans hPointer

theorem known (hSteady : s.Steady t) {p : Nat} (hKnows : s.Knows p) :
    s.heap.Rejects p ∨ ∃ b ∈ t.blocks, b.allocated = true ∧ p = b.offset + 4 := by
  rcases hKnows with ⟨g, hg, rfl⟩ | hReject
  · obtain ⟨b, hb, hAllocated, hHolds⟩ := hSteady.grant g hg
    exact Or.inr ⟨b, hb, hAllocated, hHolds.pointer⟩
  · exact Or.inl hReject

theorem without_of_rejects {p : Nat} (hSteady : s.Steady t) (hReject : s.heap.Rejects p) :
    s.without (some p) = s.live := by
  refine List.filter_eq_self.mpr fun g hg => decide_eq_true ?_
  rw [ne_eq, Option.some_inj]
  rintro rfl
  obtain ⟨b, hb, hAllocated, hHolds⟩ := hSteady.grant g hg
  obtain ⟨error, hBlock⟩ := hReject
  rw [hHolds.pointer, hSteady.atRest.blockOf hb, hAllocated, if_pos rfl] at hBlock
  cases hBlock

variable [Supply S]

theorem step_tryAllocate (hSteady : s.Steady t) (size : Nat) :
    ∃ s' u, s.step (.tryAllocate size) = .ok s' ∧ s'.Steady u := by
  rw [step]
  rcases Heap.tryAllocate_atRest hSteady.atRest hSteady.config size with
    ⟨error, h, hRun, hMemory, hConfig⟩ | ⟨_, h, hRun, hConfig, b, u, rfl, hRoom, hGains⟩
  · exact ⟨⟨h, s.live⟩, t, by rw [hRun, ok_bind]; rfl, hSteady.refuse hMemory hConfig⟩
  · obtain ⟨s', hEnlist, hSteady'⟩ := hSteady.gain hGains hConfig hRoom
    exact ⟨s', u, by rw [hRun, ok_bind]; exact hEnlist, hSteady'⟩

theorem step_allocate (s : Session S) (size : Nat) :
    s.step (.allocate size) = s.step (.tryAllocate size) := by
  rw [step, step, Heap.allocate]
  rcases s.heap.tryAllocate size with fault | ⟨error | p, h⟩
  · rfl
  · rfl
  · rfl

theorem step_release {p : Nat} (hSteady : s.Steady t) (hKnows : s.Knows p) :
    ∃ s' u, s.step (.release p) = .ok s' ∧ s'.Steady u := by
  rw [step]
  rcases hSteady.known hKnows with hReject | ⟨b, hb, hAllocated, rfl⟩
  · obtain ⟨error, hRun⟩ := Heap.release_of_rejects hReject
    exact ⟨⟨s.heap.log (.releaseRejected p error), s.live⟩, t, by rw [hRun, ok_bind]; rfl,
      hSteady.refuse rfl rfl⟩
  · obtain ⟨h, u, hRun, hConfig, _, hLoses⟩ := Heap.release_atRest hSteady.atRest hb hAllocated
    exact ⟨_, u, by rw [hRun, ok_bind]; rfl, hSteady.lose hb hLoses hConfig⟩

theorem step_tryReallocate {pointer : Option Nat} (hSteady : s.Steady t) (size : Nat)
    (hKnows : ∀ p ∈ pointer, s.Knows p) :
    ∃ s' u, s.step (.tryReallocate pointer size) = .ok s' ∧ s'.Steady u := by
  rw [step]
  rcases Heap.tryReallocate_atRest hSteady.atRest hSteady.config size
    (fun p hp => hSteady.known (hKnows p hp)) with
    ⟨error, h, hRun, hMemory, hConfig⟩ | ⟨answer, h, hRun, hConfig, hPost⟩
  · exact ⟨⟨h, s.live⟩, t, by rw [hRun, ok_bind]; rfl, hSteady.refuse hMemory hConfig⟩
  · rw [hRun, ok_bind]
    cases hPost with
    | none hSame =>
      refine ⟨⟨h, s.without none⟩, t, rfl, ?_⟩
      rw [without_none]
      exact hSteady.refuse hSame hConfig
    | gained hRoom hGains =>
      obtain ⟨s', hEnlist, hSteady'⟩ := hSteady.gain hGains hConfig hRoom
      refine ⟨s', _, ?_, hSteady'⟩
      dsimp only
      rw [without_none, funext (s.copied_none size)]
      exact hEnlist
    | lost hZero hb hAllocated hLoses => exact ⟨_, _, rfl, hSteady.lose hb hLoses hConfig⟩
    | moved hb hAllocated hRoom hMoves =>
      obtain ⟨s', hEnlist, hSteady'⟩ := hSteady.move hb hAllocated hMoves hConfig hRoom
      exact ⟨s', _, hEnlist, hSteady'⟩

theorem step_reallocate {pointer : Option Nat} (hSteady : s.Steady t) (size : Nat)
    (hKnows : ∀ p ∈ pointer, s.Knows p) :
    s.step (.reallocate pointer size) = s.step (.tryReallocate pointer size) := by
  have hKnown := fun p hp => hSteady.known (hKnows p hp)
  rw [step, step, Heap.reallocate]
  rcases Heap.tryReallocate_atRest hSteady.atRest hSteady.config size hKnown with
    ⟨error, h, hRun, _⟩ | ⟨answer, h, hRun, _, hPost⟩
  · have hSame : size = 0 → s.without pointer = s.live := by
      rintro rfl
      cases pointer with
      | none => exact without_none
      | some p =>
        rcases hKnown p rfl with hReject | ⟨b, hb, hAllocated, rfl⟩
        · exact hSteady.without_of_rejects hReject
        · obtain ⟨h', hRun'⟩ := Heap.tryReallocate_zero hSteady.atRest hb hAllocated
          rw [hRun] at hRun'
          cases hRun'
    have hLive : (if size = 0 then s.without pointer else s.live) = s.live := by
      split
      · rename_i hZero
        exact hSame hZero
      · rfl
    rw [hRun, ok_bind, ok_bind]
    change Except.ok _ = Except.ok _
    rw [hLive]
  · rw [hRun, ok_bind, ok_bind]
    cases hPost with
    | none _ =>
      change Except.ok _ = Except.ok _
      rw [without_none, ite_self]
    | gained _ _ => rfl
    | lost hZero _ _ _ =>
      change Except.ok _ = Except.ok _
      rw [if_pos hZero]
    | moved _ _ _ _ => rfl

theorem step_write {p start : Nat} {data : ByteArray} (hSteady : s.Steady t)
    (hLive : ∃ g ∈ s.live, g.pointer = p ∧ start + data.size ≤ g.usable) :
    ∃ s' u, s.step (.write p start data) = .ok s' ∧ s'.Steady u := by
  obtain ⟨g, hg, rfl, hFits⟩ := hLive
  obtain ⟨b, hb, hAllocated, hHolds⟩ := hSteady.grant g hg
  have hUsable := hHolds.usable
  obtain ⟨m, hRun, hRest, hAgree, hBytes⟩ := Heap.writePayload_atRest hSteady.atRest hb
    hAllocated start data (by omega)
  rw [step, hHolds.pointer, hRun, ok_bind]
  exact ⟨_, t, rfl, hSteady.write hb hAllocated hRest hAgree hBytes (by omega)⟩

theorem step_init (hSteady : s.Steady t) : ∃ s' u, s.step .init = .ok s' ∧ s'.Steady u := by
  have hLow := hSteady.atRest.shows.le_size
  have hMod := hSteady.atRest.shows.size_mod
  have hSize : s.heap.currentSize = s.heap.memory.size := rfl
  obtain ⟨answer, h, u, hRun, hConfig, hRest, hFree⟩ := Heap.init_atRest
    (Heap.prepare_of_sized (by omega) (by omega)) hSteady.config
    hSteady.atRest.size_cases (by omega) hSteady.atRest.shows.size_le
  refine ⟨⟨h, []⟩, u, ?_, hRest, hConfig ▸ hSteady.config, List.nodup_nil, ?_, ?_⟩
  · rw [step, hRun, ok_bind]
    rfl
  · exact fun g hg => absurd hg List.not_mem_nil
  · intro b hb hAllocated
    rw [hFree b hb] at hAllocated
    cases hAllocated

/-- Every request that is allowed is carried out, and leaves a steady session. -/
theorem step {r : Request} (hSteady : s.Steady t) (hAllows : s.Allows r) :
    ∃ s' u, s.step r = .ok s' ∧ s'.Steady u := by
  cases r with
  | allocate size =>
    rw [step_allocate]
    exact hSteady.step_tryAllocate size
  | tryAllocate size => exact hSteady.step_tryAllocate size
  | release p => exact hSteady.step_release hAllows
  | reallocate pointer size =>
    rw [hSteady.step_reallocate size hAllows]
    exact hSteady.step_tryReallocate size hAllows
  | tryReallocate pointer size => exact hSteady.step_tryReallocate size hAllows
  | write p start data => exact hSteady.step_write hAllows
  | init => exact hSteady.step_init

theorem reaches {s' : Session S} (hSteady : s.Steady t) (hReach : s.Reaches s') :
    ∃ u, s'.Steady u := by
  induction hReach with
  | start => exact ⟨t, hSteady⟩
  | step _ hAllows hStep ih =>
    obtain ⟨u, hSteady'⟩ := ih
    obtain ⟨s'', u', hRun, hSteady''⟩ := hSteady'.step hAllows
    rw [hRun] at hStep
    cases hStep
    exact ⟨u', hSteady''⟩

end Steady

end Session

end TaggedHeap
