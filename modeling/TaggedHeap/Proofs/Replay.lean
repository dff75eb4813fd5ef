import TaggedHeap.Proofs.Grammar
import TaggedHeap.Proofs.Ledger
import TaggedHeap.Proofs.Refusal

/-! # Replays on a heap in use

A replay finds every payload as it has left it, and leaves the payloads of others as they were. What
can stop it is an operation on an id that is not live, or a heap without room; it then stops at the
first such operation, and says so.
-/

namespace TaggedHeap

namespace Trace

/-- Whether an operation leaves its id live. -/
def Op.leaves : Op → Bool
  | .allocate _ _ => true
  | .reallocate _ size => size ≠ 0
  | .free _ => false

/-- Which ids are live after an operation. -/
def Op.after (op : Op) (live : Nat → Bool) (id : Nat) : Bool :=
  if op.id = id then op.leaves else live id

def liveAfter (live : Nat → Bool) (ops : List (Nat × Op)) : Nat → Bool :=
  ops.foldl (fun live entry => entry.2.after live) live

section Steps

variable {S : Type} {old : Memory} {others : List Block} {numIds : Nat} {t u : Shape} {h : Heap S}
  {b c : Block} {id size : Nat} {l : Live}

theorem inspect_eq_ok (hRest : h.memory.AtRest t) (hb : b ∈ t.blocks)
    (hFills : l.Fills id h.memory b) (line : Nat) : inspect h l id line = .ok (.ok ()) := by
  have hFilled := hFills.filled
  rw [hFills.pointer] at hFilled
  rw [inspect, hFills.pointer,
    Heap.payloadHolds_atRest hRest hb hFills.allocated hFills.room hFilled, ok_bind]
  rfl

namespace Progress

variable {p : Progress S}

def isLive (p : Progress S) (id : Nat) : Bool := p.live[id]?.isSome

/-- The heap is at rest and the table is in order. -/
structure Sound (old : Memory) (others : List Block) (numIds : Nat) (p : Progress S) (t : Shape) :
    Prop where
  atRest : p.heap.memory.AtRest t
  config : p.heap.config.Roomy
  ledger : Ledger old others p.live p.heap.memory t
  requested : p.requested = total p.live numIds

namespace Sound

theorem share_le (hSound : p.Sound old others numIds t) (hId : id < numIds) :
    share p.live id ≤ p.requested := by
  have hTotal : total (p.live.erase id) numIds + share p.live id = total p.live numIds :=
    total_erase hId
  have hRequested := hSound.requested
  omega

/-- A payload has left the table. -/
theorem erase (hSound : p.Sound old others numIds t) (hId : id < numIds)
    (hRest : h.memory.AtRest u) (hConfig : h.config = p.heap.config)
    (hLedger : Ledger old others (p.live.erase id) h.memory u) :
    Sound old others numIds ⟨h, p.live.erase id, p.requested - share p.live id, p.peak⟩ u := by
  refine ⟨hRest, hConfig ▸ hSound.config, hLedger, ?_⟩
  have hTotal : total (p.live.erase id) numIds + share p.live id = total p.live numIds :=
    total_erase hId
  have hRequested := hSound.requested
  dsimp only
  omega

/-- A payload in the table is as it was left, and it can be released. -/
theorem release (hSound : p.Sound old others numIds t) (hId : id < numIds) (line : Nat)
    (hOld : p.live[id]? = some l) :
    ∃ h' u, inspect p.heap l id line = .ok (.ok ()) ∧ p.heap.release l.pointer = .ok (.ok (), h') ∧
      minus p.requested l.size = .ok (p.requested - l.size) ∧
      Sound old others numIds ⟨h', p.live.erase id, p.requested - l.size, p.peak⟩ u := by
  obtain ⟨b, hb, hNot, hFills⟩ := hSound.ledger.held id l hOld
  obtain ⟨h', u, hRun, hConfig, _, hLoses⟩ :=
    Heap.release_atRest hSound.atRest hb hFills.allocated
  have hLedger := hSound.ledger.lose hOld hNot hFills.pointer hLoses
  have hErased := hSound.erase hId hLoses.atRest hConfig hLedger
  have hShare := hSound.share_le hId
  rw [share_of_some hOld] at hShare hErased
  rw [hFills.pointer]
  exact ⟨h', u, inspect_eq_ok hSound.atRest hb hFills line, hRun, minus_eq_ok hShare, hErased⟩

/-- A payload that has been filled has entered the table. -/
theorem insert (hSound : p.Sound old others numIds t) (size : Nat) (hId : id < numIds)
    (hRest : h.memory.AtRest u) (hConfig : h.config = p.heap.config) (hc : c ∈ u.blocks)
    (hNot : c ∉ others) (hLedger : Ledger old others (p.live.erase id) h.memory u)
    (hFresh : ∀ (id : Nat) (l : Live), p.live[id]? = some l → l.pointer ≠ c.offset + 4)
    (hFills : Live.Fills ⟨c.offset + 4, size⟩ id h.memory c) :
    p.requested - share p.live id + size < 2 ^ 64 ∧
      Sound old others numIds ⟨h, p.live.insert id ⟨c.offset + 4, size⟩,
        p.requested - share p.live id + size, p.peak⟩ u := by
  have hInserted := hLedger.insert hc hNot hFresh hFills
  have hTotal : total (p.live.insert id ⟨c.offset + 4, size⟩) numIds + share p.live id =
      total p.live numIds + size := total_insert hId
  have hShare := hSound.share_le hId
  have hRequested := hSound.requested
  have hRoom := hInserted.total_le hRest.shows numIds
  have hSmall := hRest.shows.size_le
  refine ⟨by omega, hRest, hConfig ▸ hSound.config, hInserted, ?_⟩
  dsimp only
  omega

/-- A new payload can be filled, and then enters the table. -/
theorem fill (hSound : p.Sound old others numIds t) (size : Nat) (hId : id < numIds)
    (hRest : h.memory.AtRest u) (hConfig : h.config = p.heap.config) (hc : c ∈ u.blocks)
    (hAllocated : c.allocated = true) (hRoom : size + 8 ≤ c.size)
    (hFresh : ∀ b ∈ t.blocks, b.allocated = true → b.offset ≠ c.offset)
    (hLedger : ∀ n, (h.memory.AgreeOff n fun j => c.offset + 4 ≤ j ∧ j + 4 < c.offset + c.size) →
      Ledger old others (p.live.erase id) n u) :
    ∃ h', h.fillPayload (c.offset + 4) size (fillByte id) = .ok (.ok (), h') ∧
      plus (p.requested - share p.live id) size = .ok (p.requested - share p.live id + size) ∧
      Sound old others numIds ⟨h', p.live.insert id ⟨c.offset + 4, size⟩,
        p.requested - share p.live id + size, p.peak⟩ u := by
  obtain ⟨n, hFill, hAgree, hFilled⟩ :=
    Heap.fillPayload_atRest hRest hc hAllocated size (fillByte id) (by omega)
  obtain ⟨hNot, hOther⟩ := hSound.ledger.unclaimed hFresh
  obtain ⟨hSum, hInserted⟩ := hSound.insert (h := h.withMemory n) size hId
    (hRest.refill hc hAllocated hAgree) hConfig hc hNot (hLedger n hAgree) hOther
    ⟨hAllocated, rfl, hRoom, hFilled⟩
  exact ⟨h.withMemory n, hFill, plus_eq_ok hSum, hInserted⟩

end Sound

theorem isLive_of_some (hOld : p.live[id]? = some l) : p.isLive id = true := by
  rw [isLive, hOld]
  rfl

theorem isLive_of_none (hOld : p.live[id]? = none) : p.isLive id = false := by
  rw [isLive, hOld]
  rfl

theorem isLive_erase {requested peak : Nat} {op : Op} (hId : op.id = id)
    (hLeaves : op.leaves = false) :
    isLive ⟨h, p.live.erase id, requested, peak⟩ = op.after p.isLive := by
  funext j
  rw [isLive, Op.after, getElem?_erase, hId, hLeaves]
  split
  · rfl
  · rfl

theorem isLive_insert {requested peak : Nat} {op : Op} (hId : op.id = id)
    (hLeaves : op.leaves = true) :
    isLive ⟨h, p.live.insert id l, requested, peak⟩ = op.after p.isLive := by
  funext j
  rw [isLive, Op.after, getElem?_insert, hId, hLeaves]
  split
  · rfl
  · rfl

end Progress

variable [Supply S]

/-- What stands in the way of an operation: its id is not live, or the heap does not allocate what
it asks for. -/
inductive Blocks (live : Nat → Bool) (h : Heap S) (line : Nat) : Op → Failure → Prop where
  | reallocateUnknown {id size : Nat} (hDead : live id = false) :
      Blocks live h line (.reallocate id size) (.unknownId line id)
  | freeUnknown {id : Nat} (hDead : live id = false) :
      Blocks live h line (.free id) (.unknownId line id)
  | allocate {id size : Nat} {error : HeapError} {h' : Heap S}
      (hRun : h.tryAllocate size = .ok (.error error, h'))
      (hError : error = .zeroSize ∨ error = .tooLarge ∨ error = .outOfMemory) :
      Blocks live h line (.allocate id size) (.refused line error)
  | reallocate {id size : Nat} {error : HeapError} {h' : Heap S} (hLive : live id = true)
      (hSize : size ≠ 0) (hRun : h.tryAllocate size = .ok (.error error, h'))
      (hError : error = .zeroSize ∨ error = .tooLarge ∨ error = .outOfMemory) :
      Blocks live h line (.reallocate id size) (.refused line error)

namespace Progress

/-- How an operation ends: it is blocked and no byte has changed, or it is done. -/
inductive Ends (old : Memory) (others : List Block) (numIds : Nat) (p : Progress S) (line : Nat)
    (op : Op) (run : Checked (Stage S)) : Prop where
  | blocked (failure : Failure) (q : Progress S) (hRun : run = .ok (.error failure, q))
      (hBlocks : Blocks p.isLive p.heap line op failure) (hMemory : q.heap.memory = p.heap.memory)
  | done (q : Progress S) (t : Shape) (hRun : run = .ok (.ok (), q))
      (hOpen : ∀ failure, ¬ Blocks p.isLive p.heap line op failure)
      (hSound : q.Sound old others numIds t) (hLive : q.isLive = op.after p.isLive)

section Operations

variable {p : Progress S}

theorem free_ends (hSound : p.Sound old others numIds t) (hId : id < numIds) (line : Nat) :
    p.Ends old others numIds line (.free id) (p.free line id) := by
  cases hOld : p.live[id]? with
  | none =>
    refine .blocked (.unknownId line id) p ?_ (.freeUnknown (isLive_of_none hOld)) rfl
    rw [free, hOld]
    rfl
  | some l =>
    obtain ⟨h', u, hInspect, hRun, hMinus, hErased⟩ := hSound.release hId line hOld
    refine .done _ u ?_ ?_ hErased (isLive_erase rfl rfl)
    · rw [free, hOld]
      dsimp only
      rw [hInspect, ok_bind]
      dsimp only
      rw [hRun, ok_bind]
      dsimp only
      rw [hMinus, ok_bind]
      rfl
    · intro failure hBlocks
      cases hBlocks with
      | freeUnknown hDead =>
        rw [isLive_of_some hOld] at hDead
        cases hDead

theorem reallocate_zero_ends (hSound : p.Sound old others numIds t) (hId : id < numIds) (line : Nat)
    (hOld : p.live[id]? = some l) :
    p.Ends old others numIds line (.reallocate id 0) (p.reallocate line id 0) := by
  obtain ⟨h', u, hInspect, hRun, hMinus, hErased⟩ := hSound.release hId line hOld
  refine .done _ u ?_ ?_ hErased (isLive_erase rfl rfl)
  · rw [reallocate, hOld]
    dsimp only
    rw [hInspect, ok_bind]
    dsimp only
    rw [Heap.tryReallocate_of_released hRun, ok_bind]
    dsimp only
    rw [hMinus, ok_bind]
    rfl
  · intro failure hBlocks
    cases hBlocks with
    | reallocateUnknown hDead =>
      rw [isLive_of_some hOld] at hDead
      cases hDead
    | reallocate _ hSize _ _ => exact hSize rfl

variable [Supply.Limited S]

theorem allocate_ends (hSound : p.Sound old others numIds t) (hId : id < numIds) (line size : Nat) :
    p.Ends old others numIds line (.allocate id size) (p.allocate line id size) := by
  rcases Heap.tryAllocate_atRest hSound.atRest hSound.config size with
    ⟨error, h', hRun, hMemory, _⟩ | ⟨_, h', hRun, hConfig, c, u, rfl, hRoom, hGains⟩
  · refine .blocked (.refused line error) ⟨h', p.live, p.requested, p.peak⟩ ?_
      (.allocate hRun (Heap.tryAllocate_error hRun).1) hMemory
    rw [allocate, hRun, ok_bind]
    rfl
  have hc := (hGains.mem_iff c hGains.allocated).mpr (Or.inl rfl)
  obtain ⟨h'', hFill, hPlus, hSound'⟩ := hSound.fill size hId hGains.atRest hConfig hc
    hGains.allocated (by omega) hGains.fresh
    fun n hAgree => (hSound.ledger.gain (hGains.refill hAgree)).forget id
  refine .done _ u ?_ ?_ hSound' (isLive_insert rfl rfl)
  · have hShare := hSound.share_le hId
    rw [allocate, hRun, ok_bind]
    cases hOld : p.live[id]? with
    | none =>
      rw [share, hOld, Option.map_none, Option.getD_none, Nat.sub_zero] at hPlus ⊢
      dsimp only
      rw [pure_bind, hFill, ok_bind]
      dsimp only
      rw [hPlus, ok_bind]
      rfl
    | some l =>
      rw [share_of_some hOld] at hShare hPlus ⊢
      dsimp only
      rw [minus_eq_ok hShare, ok_bind, hFill, ok_bind]
      dsimp only
      rw [hPlus, ok_bind]
      rfl
  · intro failure hBlocks
    cases hBlocks with
    | allocate hRun' _ =>
      rw [hRun] at hRun'
      cases hRun'

theorem reallocate_some_ends (hSound : p.Sound old others numIds t) (hId : id < numIds) (line : Nat)
    (hOld : p.live[id]? = some l) (hSize : size ≠ 0) :
    p.Ends old others numIds line (.reallocate id size) (p.reallocate line id size) := by
  obtain ⟨b, hb, hNot, hFills⟩ := hSound.ledger.held id l hOld
  have hPointer := hFills.pointer
  have hRoomB := hFills.room
  have hInspect := inspect_eq_ok hSound.atRest hb hFills line
  rcases Heap.tryAllocate_atRest hSound.atRest hSound.config size with
    ⟨error, h', hRun, hMemory, _⟩ | ⟨_, h', hRun, hConfig', c, u, rfl, hRoom, hGains⟩
  · refine .blocked (.refused line error) ⟨h', p.live, p.requested, p.peak⟩ ?_
      (.reallocate (isLive_of_some hOld) hSize hRun (Heap.tryAllocate_error hRun).1) hMemory
    rw [reallocate, hOld]
    dsimp only
    rw [hInspect, ok_bind]
    dsimp only
    rw [hPointer,
      Heap.tryReallocate_of_refused hSound.atRest hb hFills.allocated hSize hRun, ok_bind]
    rfl
  obtain ⟨n, h'', v, hMove, hRelease, hConfig, hMoves⟩ :=
    Heap.move_atRest hb hFills.allocated hGains (min size (b.size - 8)) (by omega) (by omega)
  have hRun' := Heap.tryReallocate_of_moved hSound.atRest hb hFills.allocated hSize hRun hMove
    hRelease
  -- What the move has counted and logged has no part in what follows.
  generalize hMoved : (h''.tally .reallocation).log (.moved (b.offset + 4) (c.offset + 4)
    (min size (b.size - 8))) = q at hRun'
  have hMemory : h''.memory = q.memory := by rw [← hMoved]; rfl
  have hConfig'' : q.config = p.heap.config := by
    rw [← hMoved]
    exact hConfig.trans hConfig'
  rw [hMemory] at hMoves
  have hc := (hMoves.mem_iff c hMoves.allocated).mpr (Or.inl rfl)
  have hKept : Live.Fills ⟨c.offset + 4, min l.size size⟩ id q.memory c := by
    refine ⟨hMoves.allocated, rfl, by dsimp only; omega, fun j hj => ?_⟩
    dsimp only at hj ⊢
    rw [hMoves.copy j (by omega), ← hPointer, hFills.filled j (by omega)]
  obtain ⟨q', hFill, hPlus, hSound'⟩ := hSound.fill size hId hMoves.atRest hConfig'' hc
    hMoves.allocated (by omega) hMoves.fresh
    fun n hAgree => hSound.ledger.move hOld hNot hPointer (hMoves.refill hAgree)
  refine .done _ v ?_ ?_ hSound' (isLive_insert rfl (decide_eq_true hSize))
  · have hShare := hSound.share_le hId
    rw [share_of_some hOld] at hShare hPlus ⊢
    rw [reallocate, hOld]
    dsimp only
    rw [hInspect, ok_bind]
    dsimp only
    rw [hPointer, hRun', ok_bind]
    dsimp only
    rw [minus_eq_ok hShare, ok_bind, inspect_eq_ok hMoves.atRest hc hKept line, ok_bind]
    dsimp only
    rw [hFill, ok_bind]
    dsimp only
    rw [hPlus, ok_bind]
    rfl
  · intro failure hBlocks
    cases hBlocks with
    | reallocateUnknown hDead =>
      rw [isLive_of_some hOld] at hDead
      cases hDead
    | reallocate _ _ hRefused _ =>
      rw [hRun] at hRefused
      cases hRefused

theorem reallocate_ends (hSound : p.Sound old others numIds t) (hId : id < numIds)
    (line size : Nat) :
    p.Ends old others numIds line (.reallocate id size) (p.reallocate line id size) := by
  cases hOld : p.live[id]? with
  | none =>
    refine .blocked (.unknownId line id) p ?_ (.reallocateUnknown (isLive_of_none hOld)) rfl
    rw [reallocate, hOld]
    rfl
  | some l =>
    rcases eq_or_ne size 0 with rfl | hSize
    · exact reallocate_zero_ends hSound hId line hOld
    · exact reallocate_some_ends hSound hId line hOld hSize

theorem apply_ends {op : Op} (hSound : p.Sound old others numIds t) (hId : op.id < numIds)
    (line : Nat) : p.Ends old others numIds line op (p.apply line op) := by
  cases op with
  | allocate id size => exact allocate_ends hSound hId line size
  | reallocate id size => exact reallocate_ends hSound hId line size
  | free id => exact free_ends hSound hId line

/-- Verification never finds a fault with what an operation leaves. -/
theorem step_ends {op : Op} (hSound : p.Sound old others numIds t) (hId : op.id < numIds)
    (check : Bool) (line : Nat) : p.Ends old others numIds line op (p.step check line op) := by
  rcases apply_ends hSound hId line with
    ⟨failure, q, hRun, hBlocks, hMemory⟩ | ⟨q, u, hRun, hOpen, hSound', hLive⟩
  · refine .blocked failure q ?_ hBlocks hMemory
    rw [step, hRun, ok_bind]
    rfl
  · have hVerify : q.notePeak.heap.verify = .ok (.ok ()) :=
      Memory.verify_eq_ok_iff.mpr ⟨u, hSound'.atRest.sound.toOrderly⟩
    refine .done q.notePeak u ?_ hOpen ⟨hSound'.atRest, hSound'.config, hSound'.ledger,
      hSound'.requested⟩ hLive
    rw [step, hRun, ok_bind]
    dsimp only
    split
    · rw [hVerify, ok_bind]
      rfl
    · rfl

end Operations

/-- An answer tells how far a replay has come: past operations that nothing stood in the way of, to
the end or to the first operation that something did. -/
def Accounts {α : Type} (check : Bool) (live : Nat → Bool) (p : Progress S)
    (ops : List (Nat × Op)) : Except Failure α → Prop
  | .ok _ => ∀ pre line op post, ops = pre ++ (line, op) :: post →
    ∃ q, p.run check pre = .ok (.ok (), q) ∧
      ∀ failure, ¬ Blocks (liveAfter live pre) q.heap line op failure
  | .error failure => ∃ pre line op post q, ops = pre ++ (line, op) :: post ∧
    p.run check pre = .ok (.ok (), q) ∧ Blocks (liveAfter live pre) q.heap line op failure

theorem run_cons {check : Bool} {p q : Progress S} {line : Nat} {op : Op} {ops : List (Nat × Op)}
    (hStep : p.step check line op = .ok (.ok (), q)) :
    p.run check ((line, op) :: ops) = q.run check ops := by
  rw [run, hStep, ok_bind]

theorem Accounts.cons {check : Bool} {p q : Progress S} {line : Nat} {op : Op}
    {ops : List (Nat × Op)} {answer : Except Failure Unit}
    (hStep : p.step check line op = .ok (.ok (), q))
    (hOpen : ∀ failure, ¬ Blocks p.isLive p.heap line op failure)
    (h : Accounts check (op.after p.isLive) q ops answer) :
    Accounts check p.isLive p ((line, op) :: ops) answer := by
  cases answer with
  | ok _ =>
    intro pre line' op' post hSplit
    cases pre with
    | nil =>
      cases hSplit
      exact ⟨p, rfl, hOpen⟩
    | cons entry pre =>
      cases hSplit
      obtain ⟨r, hRun, hOpen'⟩ := h pre line' op' post rfl
      exact ⟨r, (run_cons hStep).trans hRun, hOpen'⟩
  | error failure =>
    obtain ⟨pre, line', op', post, r, rfl, hRun, hBlocks⟩ := h
    exact ⟨(line, op) :: pre, line', op', post, r, rfl, (run_cons hStep).trans hRun, hBlocks⟩

/-- Every run comes to an end and accounts for it, and the blocks of others are as they were. -/
theorem run_accounts [Supply.Limited S] (check : Bool) {p : Progress S} {ops : List (Nat × Op)}
    (hSound : p.Sound old others numIds t) (hIds : ∀ entry ∈ ops, entry.2.id < numIds) :
    ∃ answer q u, p.run check ops = .ok (answer, q) ∧ Accounts check p.isLive p ops answer ∧
      q.heap.memory.AtRest u ∧
      ∀ b ∈ others, b ∈ u.blocks ∧ b.allocated = true ∧ old.Keeps q.heap.memory b := by
  -- An operation that is done hands the invariant on, and one that is blocked ends the run.
  induction ops generalizing p t with
  | nil =>
    refine ⟨.ok (), p, t, rfl, ?_, hSound.atRest, hSound.ledger.kept⟩
    intro pre line op post hSplit
    cases pre with
    | nil => cases hSplit
    | cons _ _ => cases hSplit
  | cons entry ops ih =>
    obtain ⟨line, op⟩ := entry
    rcases step_ends hSound (hIds _ List.mem_cons_self) check line with
      ⟨failure, q, hStep, hBlocks, hMemory⟩ | ⟨q, u, hStep, hOpen, hSound', hLive⟩
    · refine ⟨.error failure, q, t, ?_, ⟨[], line, op, ops, p, rfl, rfl, hBlocks⟩, ?_, ?_⟩
      · rw [run, hStep, ok_bind]
        rfl
      · rw [hMemory]
        exact hSound.atRest
      · rw [hMemory]
        exact hSound.ledger.kept
    · obtain ⟨answer, r, v, hRun, hAccounts, hRest, hKept⟩ :=
        ih hSound' fun entry hEntry => hIds entry (List.mem_cons_of_mem _ hEntry)
      rw [hLive] at hAccounts
      exact ⟨answer, r, v, (run_cons hStep).trans hRun, hAccounts.cons hStep hOpen, hRest, hKept⟩

end Progress

end Steps

end Trace

namespace Session

open Trace.Progress

variable {S : Type} [Supply S] [Supply.Limited S] {supply : S} {config : Config} {h : Heap S}
  {s : Session S}

omit [Supply S] [Supply.Limited S] in
/-- A replay starts with an empty table: every block that is allocated is that of someone else. -/
theorem Steady.starts {t : Shape} (hSteady : s.Steady t) (numIds : Nat) :
    Sound s.heap.memory (t.blocks.filter (·.allocated)) numIds { heap := s.heap } t := by
  have hEmpty : ∀ id : Nat, (∅ : Std.TreeMap Nat Trace.Live)[id]? = none :=
    fun id => Std.TreeMap.getElem?_emptyc
  refine ⟨hSteady.atRest, hSteady.config, ⟨?_, ?_, ?_⟩, ?_⟩
  · intro b hb
    obtain ⟨hIn, hAllocated⟩ := List.mem_filter.mp hb
    exact ⟨hIn, hAllocated, fun _ _ _ => rfl⟩
  · intro id l hl
    rw [hEmpty id] at hl
    cases hl
  · intro id id' l l' hl
    rw [hEmpty id] at hl
    cases hl
  · refine (Finset.sum_eq_zero fun id _ => ?_).symm
    rw [Trace.share, hEmpty id]
    rfl

theorem Steady.replay {t : Shape} {trace : Trace} (hSteady : s.Steady t)
    (hIds : ∀ entry ∈ trace.ops, entry.2.id < trace.numIds) :
    ∃ answer h', trace.replay s.heap = .ok (answer, h') ∧
      Accounts s.heap.config.checkOnReplay (fun _ => false) { heap := s.heap } trace.ops answer ∧
      ∀ g ∈ s.live, g.Serves h' ∧ h'.payload g.pointer = s.heap.payload g.pointer := by
  have hLive : isLive ({ heap := s.heap } : Trace.Progress S) = fun _ => false :=
    funext fun id => isLive_of_none Std.TreeMap.getElem?_emptyc
  obtain ⟨answer, q, u, hRun, hAccounts, hRest, hKept⟩ :=
    run_accounts s.heap.config.checkOnReplay (hSteady.starts trace.numIds) hIds
  rw [hLive] at hAccounts
  have hServes : ∀ h' : Heap S, h'.memory = q.heap.memory →
      ∀ g ∈ s.live, g.Serves h' ∧ h'.payload g.pointer = s.heap.payload g.pointer := by
    intro h' hMemory g hg
    obtain ⟨b, hb, hAllocated, hHolds⟩ := hSteady.grant g hg
    obtain ⟨hb', _, hSame⟩ := hKept b (List.mem_filter.mpr ⟨hb, hAllocated⟩)
    rw [← hMemory] at hRest hSame
    refine ⟨(hHolds.keeps hSame).serves hRest hb' hAllocated, ?_⟩
    rw [hHolds.pointer]
    exact Heap.payload_of_keeps hSteady.atRest hRest hb hb' hAllocated hSame
  cases answer with
  | error failure =>
    refine ⟨.error failure, q.heap, ?_, hAccounts, hServes q.heap rfl⟩
    rw [Trace.replay, ensure_eq_ok hIds, ok_bind]
    dsimp only
    rw [hRun, ok_bind]
    rfl
  | ok _ =>
    refine ⟨.ok ⟨trace.ops.length, q.peak, q.heap.currentSize⟩, _, ?_, hAccounts,
      hServes (q.heap.log (.replayed ⟨trace.ops.length, q.peak, q.heap.currentSize⟩)) rfl⟩
    rw [Trace.replay, ensure_eq_ok hIds, ok_bind]
    dsimp only
    rw [hRun, ok_bind]
    rfl

/-- A trace that can be read can be replayed on any heap in use: the replay never finds a payload
overwritten, a rule broken or a pointer rejected, it stops only where it has to, and the payloads of
others come through it unchanged. -/
theorem reaches_replay {text : String} {trace : Trace} (hParse : Trace.parse text = .ok trace)
    (hValid : config.validate = .ok ()) (hChunk : 32 ≤ config.chunkSize)
    (hWord : config.chunkSize < 2 ^ 64)
    (hBuild : Heap.ofArena (.fresh supply) config = .ok (.ok h)) (hReach : Reaches ⟨h, []⟩ s) :
    ∃ answer h', trace.replay s.heap = .ok (answer, h') ∧
      Accounts s.heap.config.checkOnReplay (fun _ => false) { heap := s.heap } trace.ops answer ∧
      ∀ g ∈ s.live, g.Serves h' ∧ h'.payload g.pointer = s.heap.payload g.pointer := by
  obtain ⟨t, hStart⟩ := steady_of_built ⟨hValid, hChunk, hWord⟩ hBuild
  obtain ⟨u, hSteady⟩ := hStart.reaches hReach
  exact hSteady.replay (Trace.parse_id_lt hParse)

theorem reaches_replay_unknown : ∃ (s : Session Cap) (trace : Trace) (h' : Heap Cap),
    s.live.map Grant.pointer = [144] ∧ Trace.parse "0\n1\n3\n1\na 0 8\nf 0\nf 0" = .ok trace ∧
    trace.replay s.heap = .ok (.error (.unknownId 7 0), h') ∧
    ∀ g ∈ s.live, g.Serves h' ∧ h'.payload g.pointer = s.heap.payload g.pointer := by
  have hUnknown : rehearse (⟨400⟩ : Cap) { chunkSize := 96 } [.allocate 8] (fun s =>
      s.live.map Grant.pointer == [144] &&
        (Trace.parse "0\n1\n3\n1\na 0 8\nf 0\nf 0").toOption.any fun trace =>
          (trace.replay s.heap).toOption.any fun r => r.1 = .error (.unknownId 7 0)) = true := by
    decide +kernel
  obtain ⟨h, s, hBuild, hPermits, hRun, hCheck⟩ := exists_of_rehearse hUnknown
  have hReach := Reaches.start.run hPermits hRun
  rw [Bool.and_eq_true, beq_iff_eq] at hCheck
  obtain ⟨hPointers, hTrace⟩ := hCheck
  obtain ⟨trace, hParse, hEnds⟩ := exists_of_any hTrace
  obtain ⟨⟨_, h₁⟩, hReplay, hAnswer⟩ := exists_of_any hEnds
  obtain rfl := of_decide_eq_true hAnswer
  obtain ⟨answer, h', hReplay', _, hServes⟩ :=
    reaches_replay hParse rfl (by decide) (by decide) hBuild hReach
  rw [hReplay] at hReplay'
  cases hReplay'
  exact ⟨s, trace, h₁, hPointers, hParse, hReplay, hServes⟩

end Session

end TaggedHeap
