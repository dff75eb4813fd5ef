import Mathlib.Logic.Relation
import Mathlib.Order.MinMax
import TaggedHeap.Proofs.Noninterference

/-! # Accounts

The account of a heap is what it counts and what it logs, together with the allocated blocks that
this is about. Everything that a heap does between two initialisations is a sequence of acts: each
logs one event and changes the allocated blocks and the metrics as that event says.
-/

namespace TaggedHeap

/-- The allocated blocks of a list. -/
def held (bs : List Block) : List Block := bs.filter (·.allocated)

section Held

variable {bs cs pre post : List Block} {b : Block} {chains : Chains} {size : Nat}

theorem mem_held : b ∈ held bs ↔ b ∈ bs ∧ b.allocated = true := List.mem_filter

theorem held_append : held (bs ++ cs) = held bs ++ held cs := List.filter_append bs cs

theorem held_cons_of_allocated (h : b.allocated = true) : held (b :: bs) = b :: held bs :=
  List.filter_cons_of_pos h

theorem held_cons_of_free (h : b.allocated = false) : held (b :: bs) = held bs :=
  List.filter_cons_of_neg (by rw [h]; exact Bool.false_ne_true)

theorem held_eq_nil (h : ∀ b ∈ bs, b.allocated = false) : held bs = [] :=
  List.filter_eq_nil_iff.mpr fun b hb => by rw [h b hb]; exact Bool.false_ne_true

theorem held_absorbBefore : held (absorbBefore pre b).1 = held pre := by
  rcases last_cases pre with hLast | ⟨l, p, rfl, hFree⟩
  · rw [absorbBefore_of_allocated hLast]
  · rw [absorbBefore_concat hFree, held_append, held_cons_of_free hFree]
    exact (List.append_nil _).symm

theorem held_absorbAfter : held (absorbAfter b post).2 = held post := by
  rcases first_cases post with hFirst | ⟨n, l, rfl, hFree⟩
  · rw [absorbAfter_of_allocated hFirst]
  · rw [absorbAfter_cons hFree, held_cons_of_free hFree]

/-- Merging does not concern the allocated blocks. -/
theorem held_settle (hFree : b.allocated = false) :
    held (Shape.settle pre b post chains).blocks = held pre ++ held post := by
  rw [Shape.settle, held_append, held_cons_of_free (absorbed_free hFree), held_absorbBefore,
    held_absorbAfter]

theorem held_whole : held (Shape.whole size).blocks = [] := rfl

theorem held_unused : held (Shape.unused size).blocks = [] := by
  unfold Shape.unused
  split
  · rfl
  · rfl

theorem held_rest : held (b.rest size) = [] := by
  refine held_eq_nil fun c hc => ?_
  rw [(Block.mem_rest hc).1]

theorem held_carve : held (Shape.carve pre b post chains size).blocks =
    held pre ++ b.taken size :: held post := by
  rw [Shape.carve, held_append, held_cons_of_allocated rfl, held_append, held_rest, List.nil_append]

theorem Shape.held_take {s : Shape} (hb : b ∈ s.blocks) (hFree : b.allocated = false) :
    (held (s.take b size).blocks).Perm (b.taken size :: held s.blocks) := by
  rw [Shape.take, held_carve, Shape.blocks_eq hb, held_append, held_cons_of_free hFree]
  exact List.perm_middle

theorem Shape.held_append {s : Shape} {offset : Nat} :
    held (s.append offset size).blocks = held s.blocks :=
  (held_settle rfl).trans (List.append_nil _)

end Held

section Changes

variable {m n : Memory} {s t : Shape} {b c : Block}

theorem Memory.Shows.nodup_held (h : m.Shows s) : (held s.blocks).Nodup :=
  (List.Nodup.of_map _ h.tiling.nodup_offset).filter _

/-- A block that has been gained was not there before. -/
theorem Memory.Gains.held_perm (h : m.Gains s c n t) (hRest : m.AtRest s) :
    (held t.blocks).Perm (c :: held s.blocks) := by
  have hNot : c ∉ held s.blocks := fun hMem =>
    h.fresh c (mem_held.mp hMem).1 h.allocated rfl
  refine (List.perm_ext_iff_of_nodup h.atRest.shows.nodup_held
    (List.nodup_cons.mpr ⟨hNot, hRest.shows.nodup_held⟩)).mpr fun d => ?_
  rw [mem_held, List.mem_cons, mem_held]
  constructor
  · rintro ⟨hd, hAllocated⟩
    exact ((h.mem_iff d hAllocated).mp hd).imp_right fun hOld => ⟨hOld, hAllocated⟩
  · rintro (rfl | ⟨hd, hAllocated⟩)
    · exact ⟨(h.mem_iff d h.allocated).mpr (Or.inl rfl), h.allocated⟩
    · exact ⟨(h.mem_iff d hAllocated).mpr (Or.inr hd), hAllocated⟩

/-- A block that has been lost was one of the allocated ones, and all others still are. -/
theorem Memory.Loses.held_perm (h : m.Loses s b n t) (hRest : m.AtRest s) (hb : b ∈ s.blocks)
    (hAllocated : b.allocated = true) : (held s.blocks).Perm (b :: held t.blocks) := by
  have hNot : b ∉ held t.blocks := fun hMem =>
    ((h.mem_iff b hAllocated).mp (mem_held.mp hMem).1).1 rfl
  refine (List.perm_ext_iff_of_nodup hRest.shows.nodup_held
    (List.nodup_cons.mpr ⟨hNot, h.atRest.shows.nodup_held⟩)).mpr fun c => ?_
  rw [mem_held, List.mem_cons, mem_held]
  constructor
  · rintro ⟨hc, hAllocatedC⟩
    rcases eq_or_ne c b with hEq | hNe
    · exact Or.inl hEq
    · exact Or.inr ⟨(h.mem_iff c hAllocatedC).mpr ⟨hNe, hc⟩, hAllocatedC⟩
  · rintro (rfl | ⟨hc, hAllocatedC⟩)
    · exact ⟨hb, hAllocated⟩
    · exact ⟨((h.mem_iff c hAllocatedC).mp hc).2, hAllocatedC⟩

/-- A block that has moved has given way to one that was not there before. -/
theorem Memory.Moves.held_perm {copied : Nat} (h : m.Moves s b c copied n t) (hRest : m.AtRest s)
    (hb : b ∈ s.blocks) (hAllocated : b.allocated = true) :
    (b :: held t.blocks).Perm (c :: held s.blocks) := by
  have hNe : b ≠ c := fun hEq => h.fresh b hb hAllocated (congrArg Block.offset hEq)
  have hNew : c ∉ held s.blocks := fun hMem => h.fresh c (mem_held.mp hMem).1 h.allocated rfl
  have hGone : b ∉ held t.blocks := fun hMem =>
    ((h.mem_iff b hAllocated).mp (mem_held.mp hMem).1).elim hNe fun hOld => hOld.1 rfl
  refine (List.perm_ext_iff_of_nodup (List.nodup_cons.mpr ⟨hGone, h.atRest.shows.nodup_held⟩)
    (List.nodup_cons.mpr ⟨hNew, hRest.shows.nodup_held⟩)).mpr fun d => ?_
  rw [List.mem_cons, List.mem_cons, mem_held, mem_held]
  constructor
  · rintro (rfl | ⟨hd, hAllocatedD⟩)
    · exact Or.inr ⟨hb, hAllocated⟩
    · exact ((h.mem_iff d hAllocatedD).mp hd).imp_right fun hOld => ⟨hOld.2, hAllocatedD⟩
  · rintro (rfl | ⟨hd, hAllocatedD⟩)
    · exact Or.inr ⟨(h.mem_iff d h.allocated).mpr (Or.inl rfl), h.allocated⟩
    · rcases eq_or_ne d b with hEq | hOther
      · exact Or.inl hEq
      · exact Or.inr ⟨(h.mem_iff d hAllocatedD).mpr (Or.inr ⟨hOther, hd⟩), hAllocatedD⟩

end Changes

/-- What a heap counts and logs, and the allocated blocks. -/
structure Account where
  held : List Block
  size : Nat
  metrics : Metrics
  journal : Array Event

def Heap.account {S : Type} (h : Heap S) : Account :=
  ⟨TaggedHeap.held h.blocks, h.currentSize, h.metrics, h.journal⟩

def Plan.account {S : Type} (p : Plan S) : Account :=
  ⟨TaggedHeap.held p.shape.blocks, p.size, p.metrics, p.journal⟩

/-- An event that tells of no change: something has been refused, or a payload has moved, which its
allocation and its release have told already. -/
def Event.IsNote : Event → Prop
  | .allocationFailed .. | .releaseRejected .. | .moved .. => True
  | _ => False

/-- The same blocks have been counted. -/
structure Metrics.SameUse (m n : Metrics) : Prop where
  allocations : n.allocations = m.allocations
  releases : n.releases = m.releases
  liveBytes : n.liveBytes = m.liveBytes
  peakLiveBytes : n.peakLiveBytes = m.peakLiveBytes

namespace Account

/-- One thing that a heap does. -/
inductive Act (a b : Account) : Prop where
  | grow (increment : Nat) (hHeld : b.held = a.held) (hSize : b.size = a.size + increment)
      (hMetrics : b.metrics = a.metrics.growth)
      (hJournal : b.journal = a.journal.push (.grew increment b.size))
  | allocate (requested : Nat) (block : Block) (hHeld : b.held.Perm (block :: a.held))
      (hApart : ∀ c ∈ a.held,
        c.offset + c.size ≤ block.offset ∨ block.offset + block.size ≤ c.offset)
      (hSize : b.size = a.size) (hMetrics : b.metrics = a.metrics.allocation (block.size - 8))
      (hJournal : b.journal =
        a.journal.push (.allocated requested block.size (block.offset + 4)))
  | release (block : Block) (hHeld : a.held.Perm (block :: b.held)) (hSize : b.size = a.size)
      (hMetrics : b.metrics = a.metrics.release (block.size - 8))
      (hJournal : b.journal = a.journal.push (.released (block.offset + 4) block.size))
  | note (event : Event) (hNote : event.IsNote) (hHeld : b.held = a.held) (hSize : b.size = a.size)
      (hMetrics : a.metrics.SameUse b.metrics) (hJournal : b.journal = a.journal.push event)

/-- Any number of things that a heap does, one after the other. -/
abbrev Acts : Account → Account → Prop := Relation.ReflTransGen Act

/-- Acts of which only the last one can have reached a new peak. -/
structure Burst (a b : Account) : Prop where
  acts : a.Acts b
  peak : b.metrics.peakLiveBytes = a.metrics.peakLiveBytes ∨
    b.metrics.peakLiveBytes = b.metrics.liveBytes

theorem Burst.refl (a : Account) : a.Burst a := ⟨.refl, Or.inl rfl⟩

theorem Burst.after {a b c : Account} (h : b.Burst c) (hActs : a.Acts b)
    (hPeak : b.metrics.peakLiveBytes = a.metrics.peakLiveBytes) : a.Burst c :=
  ⟨hActs.trans h.acts, hPeak ▸ h.peak⟩

theorem Act.burst {a b : Account} (h : a.Act b) : a.Burst b := by
  refine ⟨.single h, ?_⟩
  cases h with
  | grow _ _ _ hMetrics _ =>
    rw [hMetrics]
    exact Or.inl rfl
  | allocate _ _ _ _ _ hMetrics _ =>
    rw [hMetrics]
    exact max_choice _ _
  | release _ _ _ hMetrics _ =>
    rw [hMetrics]
    exact Or.inl rfl
  | note _ _ _ _ hMetrics _ => exact Or.inl hMetrics.peakLiveBytes

/-- What is left of an account when all the space is unused again and nothing is counted. -/
def reset (a : Account) : Account := ⟨[], a.size, {}, a.journal⟩

/-- The account of a heap that has started over, with a chunk more. -/
def restart (a : Account) (chunk : Nat) : Account where
  held := []
  size := a.size + chunk
  metrics := Metrics.growth {}
  journal := (a.journal.push (.grew chunk (a.size + chunk))).push
    (.initialized (a.size + chunk) (a.size - 144))

theorem Acts.size_le {a b : Account} (h : a.Acts b) : a.size ≤ b.size := by
  induction h with
  | refl => exact le_rfl
  | tail _ hAct ih =>
    cases hAct with
    | grow increment _ hSize _ _ => omega
    | allocate _ _ _ _ hSize _ _ => omega
    | release _ _ hSize _ _ => omega
    | note _ _ _ hSize _ _ => omega

end Account

section Plans

variable {S : Type} {p : Plan S} {size : Nat}

theorem Heap.Follows.account {h : Heap S} (hFollows : h.Follows p) : h.account = p.account := by
  rw [Heap.account, Plan.account, ← hFollows.metrics, ← hFollows.journal, ← hFollows.size,
    ← hFollows.atRest.shows.blocks]
  rfl

theorem Plan.burst_refuse (p : Plan S) (size : Nat) (error : HeapError) :
    p.account.Burst (p.refuse size error).account := by
  cases error with
  | zeroSize => exact .refl _
  | _ =>
    exact Account.Act.burst
      (.note (.allocationFailed size _) trivial rfl rfl ⟨rfl, rfl, rfl, rfl⟩ rfl)

theorem Plan.act_take {m : Memory} {b : Block} (hRest : m.AtRest p.shape) (hb : b ∈ p.shape.blocks)
    (hFree : b.allocated = false) (requested blockSize : Nat) :
    p.account.Act (((p.reshape (p.shape.take b blockSize)).tally
      (·.allocation ((b.taken blockSize).size - 8))).log
      (.allocated requested (b.taken blockSize).size (b.offset + 4))).account := by
  refine .allocate requested (b.taken blockSize) (Shape.held_take hb hFree) ?_ rfl rfl rfl
  intro c hc
  obtain ⟨hIn, hAllocated⟩ := mem_held.mp hc
  have hTaken : (b.taken blockSize).size ≤ b.size := by
    simp only [Block.taken]
    split
    · omega
    · exact le_rfl
  have hOffset : (b.taken blockSize).offset = b.offset := rfl
  rcases hRest.shows.tiling.eq_or_apart hIn hb with rfl | hApart
  · rw [hFree] at hAllocated
    cases hAllocated
  · omega

variable [Supply S]

/-- A growth does not reach a new peak. -/
theorem Plan.acts_extend (p : Plan S) (size : Nat) : p.account.Acts (p.extend size).2.account ∧
    (p.extend size).2.metrics.peakLiveBytes = p.metrics.peakLiveBytes := by
  unfold Plan.extend
  split
  · exact ⟨.refl, rfl⟩
  · split
    · exact ⟨.refl, rfl⟩
    · exact ⟨.single (.grow size Shape.held_append rfl rfl rfl), rfl⟩

theorem Plan.acts_provide (p : Plan S) (size : Nat) : p.account.Acts (p.provide size).2.account ∧
    (p.provide size).2.metrics.peakLiveBytes = p.metrics.peakLiveBytes := by
  unfold Plan.provide
  split
  · exact ⟨.refl, rfl⟩
  · exact p.acts_extend _

theorem Heap.Follows.burst_tryAllocate {h : Heap S} (hFollows : h.Follows p)
    (hConfig : p.config.Roomy) (size : Nat) : p.account.Burst (p.tryAllocate size).2.account := by
  unfold Plan.tryAllocate
  split
  · exact .refl _
  cases hBlock : Heap.blockSizeFor size with
  | error error => exact p.burst_refuse size error
  | ok blockSize =>
    obtain ⟨hRoom, hMod, hMax⟩ := Heap.blockSizeFor_eq_ok hBlock
    obtain ⟨g, _, hProvided⟩ := hFollows.provide hConfig (by omega) hMod hMax
    obtain ⟨hActs, hPeak⟩ := p.acts_provide blockSize
    dsimp only
    rcases hProvide : p.provide blockSize with ⟨error | b, q⟩
    · rw [hProvide] at hActs hPeak
      exact (q.burst_refuse size error).after hActs hPeak
    · obtain ⟨hb, hFree, _⟩ := hFollows.provide_ok hProvide
      rw [hProvide] at hActs hPeak hProvided
      exact (Plan.act_take hProvided.atRest hb hFree size blockSize).burst.after hActs hPeak

end Plans

namespace Heap

variable {S : Type} {h h' : Heap S} {s : Shape} {b : Block} {size p : Nat}

/-- The plan that a heap follows. -/
def plan (h : Heap S) (s : Shape) : Plan S :=
  ⟨s, h.memory.size, h.arena.supply, h.config, h.metrics, h.journal⟩

theorem follows_plan (hRest : h.memory.AtRest s) : h.Follows (h.plan s) :=
  ⟨hRest, rfl, rfl, rfl, rfl, rfl⟩

theorem account_log (h : Heap S) (event : Event) :
    (h.log event).account = { h.account with journal := h.journal.push event } := rfl

theorem account_grown (h : Heap S) (a : Arena S) (size : Nat) (m : Memory) :
    (h.grown a size m).account = ⟨TaggedHeap.held m.blocks, m.size, h.metrics.growth,
      h.journal.push (.grew size (h.currentSize + size))⟩ := rfl

/-- Filling a payload does not show in the account. -/
theorem account_withMemory {n : Memory} (hRest : h.memory.AtRest s) (hRest' : n.AtRest s)
    (hSize : n.size = h.memory.size) : (h.withMemory n).account = h.account := by
  have hBlocks : (h.withMemory n).blocks = h.blocks :=
    hRest'.shows.blocks.trans hRest.shows.blocks.symm
  have hCurrent : (h.withMemory n).currentSize = h.currentSize := hSize
  rw [account, account, hBlocks, hCurrent]
  rfl

theorem act_reject {error : HeapError} : h.account.Act (h.log (.releaseRejected p error)).account :=
  .note (.releaseRejected p error) trivial rfl rfl ⟨rfl, rfl, rfl, rfl⟩ rfl

theorem act_moved (old new copied : Nat) :
    h.account.Act ((h.tally .reallocation).log (.moved old new copied)).account :=
  .note (.moved old new copied) trivial rfl rfl ⟨rfl, rfl, rfl, rfl⟩ rfl

theorem act_release (hRest : h.memory.AtRest s) (hb : b ∈ s.blocks) (hAllocated : b.allocated = true)
    {answer : Except HeapError Unit} (hRun : h.release (b.offset + 4) = .ok (answer, h')) :
    h.account.Act h'.account := by
  obtain ⟨n, t, _, hSize, hLoses, hRelease⟩ := release_eq hRest hb hAllocated
  rw [hRelease] at hRun
  cases hRun
  refine .release b ?_ hSize rfl rfl
  have hBlocks : h.blocks = s.blocks := hRest.shows.blocks
  have hBlocks' : n.blocks = t.blocks := hLoses.atRest.shows.blocks
  change (TaggedHeap.held h.blocks).Perm (b :: TaggedHeap.held n.blocks)
  rw [hBlocks, hBlocks']
  exact hLoses.held_perm hRest hb hAllocated

/-- A pointer that may be given to a release or to a reallocation. -/
def Takes (h : Heap S) (s : Shape) (p : Nat) : Prop :=
  h.Rejects p ∨ ∃ b ∈ s.blocks, b.allocated = true ∧ p = b.offset + 4

theorem burst_release (hRest : h.memory.AtRest s) (hTakes : h.Takes s p)
    {answer : Except HeapError Unit} (hRun : h.release p = .ok (answer, h')) :
    h.account.Burst h'.account := by
  rcases hTakes with hReject | ⟨b, hb, hAllocated, rfl⟩
  · obtain ⟨error, hRelease⟩ := release_of_rejects hReject
    rw [hRun] at hRelease
    cases hRelease
    exact act_reject.burst
  · exact (act_release hRest hb hAllocated hRun).burst

theorem account_write {answer : Except HeapError Unit} {start : Nat} {data : ByteArray}
    (hRest : h.memory.AtRest s) (hb : b ∈ s.blocks) (hAllocated : b.allocated = true)
    (hFits : start + data.size ≤ b.size - 8)
    (hRun : h.writePayload (b.offset + 4) start data = .ok (answer, h')) :
    h'.account = h.account := by
  obtain ⟨n, hWrite, hRest', hAgree, _⟩ := writePayload_atRest hRest hb hAllocated start data hFits
  rw [hRun] at hWrite
  cases hWrite
  exact account_withMemory hRest hRest' hAgree.size

variable [Supply S]

theorem burst_tryAllocate (hRest : h.memory.AtRest s) (hConfig : h.config.Roomy)
    {answer : Except HeapError Nat} (hRun : h.tryAllocate size = .ok (answer, h')) :
    h.account.Burst h'.account := by
  obtain ⟨g, hSame, hFollows⟩ := (follows_plan hRest).tryAllocate hConfig size
  rw [hRun] at hSame
  cases hSame
  rw [(follows_plan hRest).account, hFollows.account]
  exact (follows_plan hRest).burst_tryAllocate hConfig size

/-- Initialisation leaves all the space unused and nothing counted; unless it is refused it has
added a chunk. -/
theorem init_account (hPrepare : h.prepare = (.ok (), h')) (hConfig : h'.config.Roomy)
    (hSize : h'.currentSize = 144 ∨ 176 ≤ h'.currentSize) (hMod : h'.currentSize % 8 = 0)
    (hSmall : h'.currentSize ≤ 2 ^ 31) :
    (∃ error g, h.init = .ok (.error error, g) ∧ g.account = h'.account.reset) ∨
      ∃ g, h.init = .ok (.ok (), g) ∧ g.account = h'.account.restart h'.config.chunkSize := by
  have hChunk := hConfig.chunk
  have hMemory : h'.currentSize = h'.memory.size := rfl
  obtain ⟨n, hFormat, hSizeN, hShows⟩ := Memory.format_shows (m := h'.memory) (by omega) (by omega)
    (by omega) (by omega)
  have hCurrent : (h'.formatted n).currentSize = h'.currentSize := hSizeN
  have hUnused : (h'.formatted n).account = h'.account.reset := by
    rw [account, blocks, hCurrent, show (h'.formatted n).memory = n from rfl, hShows.blocks,
      held_unused]
    rfl
  rcases Nat.lt_or_ge (2 ^ 31) (h'.currentSize + h'.config.chunkSize) with hLarge | hFits
  · exact Or.inl ⟨_, _, init_of_refused hPrepare hFormat
      (extend_of_large hConfig.chunk_mod hConfig.padded (by rwa [hCurrent])), hUnused⟩
  rcases hGrow : (h'.formatted n).arena.grow h'.config.chunkSize with ⟨error | start, a⟩
  · refine Or.inl ⟨error, _, init_of_refused hPrepare hFormat
      (extend_of_refused hConfig.chunk_mod (by rwa [hCurrent]) hGrow), ?_⟩
    rw [← hUnused, account, account, blocks, blocks, currentSize, currentSize]
    change Account.mk (TaggedHeap.held a.memory.blocks) a.memory.size _ _ = _
    rw [(Arena.grow_error hGrow).1]
    rfl
  · obtain ⟨m, hExtend, hSizeM, hShows'⟩ := extend_unused (h := h'.formatted n) hShows
      (by rw [hCurrent]; omega) (by omega) hConfig.chunk_mod (by rwa [hCurrent]) (by omega) hGrow
    refine Or.inr ⟨_, init_of_extended hPrepare hFormat hExtend, ?_⟩
    rw [hCurrent] at hSizeM
    have hGrown : ((h'.formatted n).grown a h'.config.chunkSize m).currentSize =
      h'.currentSize + h'.config.chunkSize := hSizeM
    rw [account_log, account_grown, hShows'.blocks, held_whole, hGrown, hSizeM]
    change Account.mk [] _ _ ((Array.push _ (.grew _ ((h'.formatted n).currentSize + _))).push _) = _
    rw [hCurrent]
    rfl

/-- A heap that has been built has started over on an arena without blocks. -/
theorem ofArena_account {supply : S} {config : Config} (hConfig : config.Roomy)
    (hBuild : ofArena (.fresh supply) config = .ok (.ok h)) :
    h.account = Account.restart ⟨[], 144, {}, #[]⟩ config.chunkSize := by
  have hInit := (ofArena_eq_ok_iff hConfig.valid).mp hBuild
  have hEmpty : Heap.currentSize ⟨.fresh supply, config, {}, #[]⟩ = 0 := rfl
  rcases hGrow : (Arena.fresh supply).grow 144 with ⟨error | start, a⟩
  · rw [init_of_unprepared (prepare_of_refused hEmpty hGrow)] at hInit
    cases hInit
  · have hSize : a.size = 144 := Memory.size_extend? (Arena.grow_ok hGrow).2.1
    rcases init_account (prepare_of_granted hEmpty hGrow) hConfig (Or.inl hSize)
      (congrArg (· % 8) hSize) (le_trans (le_of_eq hSize) (by decide)) with
      ⟨error, g, hRun, _⟩ | ⟨g, hRun, hAccount⟩
    · rw [hRun] at hInit
      cases hInit
    · rw [hRun] at hInit
      cases hInit
      rw [hAccount, Account.restart, show Account.size _ = 144 from hSize]
      rfl

end Heap

end TaggedHeap
