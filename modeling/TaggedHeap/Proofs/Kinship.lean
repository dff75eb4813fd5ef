import TaggedHeap.Proofs.Noninterference
import TaggedHeap.Trace.Replay

/-! # What operations can tell of a heap

An operation sees of a heap its bytes, the size of a chunk, and whether the arena has grown. Heaps
of which all of this is the same, now and later, are kin: each operation has the same answer on
both and leaves them kin. A relation on a single heap, of which nothing is asked but that operations
keep it, is a special case.
-/

namespace TaggedHeap

/-- Both steps end with the same fault, or with the same answer and related states. -/
inductive Related {X α : Type} (R : X → X → Prop) :
    Checked (α × X) → Checked (α × X) → Prop where
  | fault (fault : Fault) : Related R (.error fault) (.error fault)
  | ok (a : α) {x y : X} (hR : R x y) : Related R (.ok (a, x)) (.ok (a, y))

namespace Related

variable {X Y α β γ : Type} {R : X → X → Prop} {Q : Y → Y → Prop}

theorem bind {run run' : Checked (α × X)} {next next' : α × X → Checked (β × Y)}
    (hRun : Related R run run')
    (hNext : ∀ a x y, R x y → Related Q (next (a, x)) (next' (a, y))) :
    Related Q (run >>= next) (run' >>= next') := by
  cases hRun with
  | fault fault => exact .fault fault
  | ok a hR => exact hNext a _ _ hR

/-- A step that both take alike, and that leaves the states alone. -/
theorem look {run : Checked γ} {next next' : γ → Checked (β × Y)}
    (hNext : ∀ c, Related Q (next c) (next' c)) : Related Q (run >>= next) (run >>= next') := by
  cases run with
  | error fault => exact .fault fault
  | ok c => exact hNext c

theorem of_ok {run run' : Checked (α × X)} {a : α} {x : X} (h : Related R run run')
    (hRun : run = .ok (a, x)) : ∃ y, run' = .ok (a, y) ∧ R x y := by
  cases h with
  | fault fault => cases hRun
  | ok a hR =>
    cases hRun
    exact ⟨_, rfl, hR⟩

end Related

variable {S : Type}

/-- A relation that no operation can tell from equality. -/
structure Kinship [Supply S] (R : Heap S → Heap S → Prop) : Prop where
  memory : ∀ {h g}, R h g → g.memory = h.memory
  chunk : ∀ {h g}, R h g → g.config.chunkSize = h.config.chunkSize
  withMemory : ∀ {h g}, R h g → ∀ m, R (h.withMemory m) (g.withMemory m)
  tally : ∀ {h g}, R h g → ∀ change, R (h.tally change) (g.tally change)
  log : ∀ {h g}, R h g → ∀ event, R (h.log event) (g.log event)
  growArena : ∀ {h g}, R h g → ∀ increment, ∃ answer h' g',
    h.growArena increment = (answer, h') ∧ g.growArena increment = (answer, g') ∧ R h' g'

namespace Heap

theorem edit_eq_bind (h : Heap S) (step : Memory → Checked Memory) :
    h.edit step = step h.memory >>= fun m => .ok (h.withMemory m) := rfl

theorem update_eq_bind {α : Type} (h : Heap S) (step : Memory → Checked (α × Memory)) :
    h.update step = step h.memory >>= fun r => .ok (r.1, h.withMemory r.2) := rfl

end Heap

namespace Kinship

variable [Supply S] {R : Heap S → Heap S → Prop} {h g : Heap S}

section Heaps

variable (hKin : Kinship R) (hR : R h g)

include hKin hR

theorem currentSize : g.currentSize = h.currentSize :=
  congrArg Memory.size (hKin.memory hR)

theorem edit {Y β : Type} {Q : Y → Y → Prop} {step : Memory → Checked Memory}
    {next next' : Heap S → Checked (β × Y)}
    (hNext : ∀ h g, R h g → Related Q (next h) (next' g)) :
    Related Q (h.edit step >>= next) (g.edit step >>= next') := by
  rw [h.edit_eq_bind, g.edit_eq_bind, hKin.memory hR]
  cases step h.memory with
  | error fault => exact .fault fault
  | ok m => exact hNext _ _ (hKin.withMemory hR m)

theorem update {α : Type} (step : Memory → Checked (α × Memory)) :
    Related R (h.update step) (g.update step) := by
  rw [h.update_eq_bind, g.update_eq_bind, hKin.memory hR]
  exact .look fun r => .ok r.1 (hKin.withMemory hR r.2)

theorem usableSize (pointer : Nat) : g.usableSize pointer = h.usableSize pointer := by
  rw [Heap.usableSize, Heap.usableSize, hKin.memory hR]

theorem payloadHolds (pointer count : Nat) (x : UInt8) :
    g.payloadHolds pointer count x = h.payloadHolds pointer count x := by
  rw [Heap.payloadHolds, Heap.payloadHolds, hKin.usableSize hR, hKin.memory hR]

theorem writePayload (pointer start : Nat) (data : ByteArray) :
    Related R (h.writePayload pointer start data) (g.writePayload pointer start data) := by
  unfold Heap.writePayload
  rw [hKin.usableSize hR]
  refine .look fun usable => ?_
  cases usable with
  | error error => exact .ok _ hR
  | ok usable => exact .look fun _ => hKin.edit hR fun _ _ hR => .ok _ hR

theorem fillPayload (pointer count : Nat) (x : UInt8) :
    Related R (h.fillPayload pointer count x) (g.fillPayload pointer count x) := by
  unfold Heap.fillPayload
  rw [hKin.usableSize hR]
  refine .look fun usable => ?_
  cases usable with
  | error error => exact .ok _ hR
  | ok usable => exact .look fun _ => hKin.edit hR fun _ _ hR => .ok _ hR

theorem release (pointer : Nat) : Related R (h.release pointer) (g.release pointer) := by
  unfold Heap.release
  rw [hKin.memory hR]
  refine .look fun answer => ?_
  cases answer with
  | error error => exact .ok _ (hKin.log hR _)
  | ok block =>
    refine .look fun size => hKin.edit hR fun h g hR => .look fun usable => ?_
    exact .ok _ (hKin.log (hKin.tally hR _) _)

theorem extend (size : Nat) : Related R (h.extend size) (g.extend size) := by
  unfold Heap.extend
  rw [hKin.currentSize hR]
  refine .look fun size => ?_
  split
  · exact .ok _ hR
  · obtain ⟨answer, h', g', hGrow, hGrow', hGrown⟩ := hKin.growArena hR size
    rw [hGrow, hGrow']
    cases answer with
    | error error => exact .ok _ hGrown
    | ok start =>
      refine .bind (hKin.update hGrown _) fun block h g hR => ?_
      have hTally := hKin.tally hR .growth
      dsimp only
      rw [hKin.currentSize hTally]
      exact .bind (hKin.update (hKin.log hTally _) _) fun merged h g hR => .ok _ hR

theorem provide (blockSize : Nat) : Related R (h.provide blockSize) (g.provide blockSize) := by
  unfold Heap.provide
  rw [hKin.memory hR, hKin.chunk hR]
  refine .look fun found => ?_
  cases found with
  | some block => exact .ok _ hR
  | none => exact hKin.extend hR _

theorem allocateBlock (size : Nat) : Related R (h.allocateBlock size) (g.allocateBlock size) := by
  unfold Heap.allocateBlock
  split
  · exact .ok _ hR
  · cases Heap.blockSizeFor size with
    | error error => exact .ok _ hR
    | ok blockSize =>
      refine .bind (hKin.provide hR blockSize) fun answer h g hR => ?_
      cases answer with
      | error error => exact .ok _ hR
      | ok block => exact hKin.edit hR fun _ _ hR => .ok _ hR

theorem tryAllocate (size : Nat) : Related R (h.tryAllocate size) (g.tryAllocate size) := by
  refine .bind (hKin.allocateBlock hR size) fun answer h g hR => ?_
  rcases answer with error | block
  · cases error with
    | zeroSize => exact .ok _ hR
    | _ => exact .ok _ (hKin.log (hKin.tally hR _) _)
  · dsimp only
    rw [hKin.memory hR]
    refine .look fun usable => .look fun blockSize => .look fun payload => ?_
    exact .ok _ (hKin.log (hKin.tally hR _) _)

theorem tryReallocate (pointer : Option Nat) (size : Nat) :
    Related R (h.tryReallocate pointer size) (g.tryReallocate pointer size) := by
  unfold Heap.tryReallocate
  cases pointer with
  | none =>
    refine .bind (hKin.tryAllocate hR size) fun answer h g hR => ?_
    rcases answer with error | new
    · cases error <;> exact .ok _ hR
    · exact .ok _ hR
  | some old =>
    dsimp only
    split
    · refine .bind (hKin.release hR old) fun answer h g hR => ?_
      cases answer <;> exact .ok _ hR
    · rw [hKin.usableSize hR]
      refine .look fun usable => ?_
      cases usable with
      | error error => exact .ok _ hR
      | ok oldSize =>
        refine .bind (hKin.tryAllocate hR size) fun answer h g hR => ?_
        cases answer with
        | error error => exact .ok _ hR
        | ok new =>
          refine hKin.edit hR fun h g hR => .bind (hKin.release hR old) fun answer h g hR => ?_
          cases answer with
          | error error => exact .ok _ hR
          | ok _ => exact .ok _ (hKin.log (hKin.tally hR _) _)

theorem prepare :
    ∃ answer h' g', h.prepare = (answer, h') ∧ g.prepare = (answer, g') ∧ R h' g' := by
  unfold Heap.prepare
  simp only [hKin.currentSize hR]
  split
  · obtain ⟨answer, h', g', hGrow, hGrow', hGrown⟩ := hKin.growArena hR Layout.bareSize
    rw [hGrow, hGrow']
    cases answer with
    | error error => exact ⟨_, _, _, rfl, rfl, hGrown⟩
    | ok start => exact ⟨_, _, _, rfl, rfl, hGrown⟩
  · split
    · exact ⟨_, _, _, rfl, rfl, hR⟩
    · exact ⟨_, _, _, rfl, rfl, hR⟩

theorem init : Related R h.init g.init := by
  unfold Heap.init
  obtain ⟨answer, h', g', hPrepare, hPrepare', hPrepared⟩ := hKin.prepare hR
  rw [hPrepare, hPrepare']
  cases answer with
  | error error => exact .ok _ hPrepared
  | ok _ =>
    refine .bind (hKin.update hPrepared _) fun reclaimed h g hR => ?_
    have hFresh := hKin.tally hR fun _ => {}
    dsimp only
    rw [hKin.chunk hFresh]
    refine .bind (hKin.extend hFresh _) fun answer h g hR => ?_
    cases answer with
    | error error => exact .ok _ hR
    | ok _ =>
      dsimp only
      rw [hKin.currentSize hR]
      exact .ok _ (hKin.log hR _)

theorem inspect (payload : Trace.Live) (id line : Nat) :
    Trace.inspect g payload id line = Trace.inspect h payload id line := by
  rw [Trace.inspect, Trace.inspect, hKin.payloadHolds hR]

theorem verify : g.verify = h.verify := by
  rw [Heap.verify, Heap.verify, hKin.memory hR]

theorem perform (r : Request) : Related R (h.perform r) (g.perform r) := by
  cases r with
  | allocate size =>
    exact .bind (.bind (hKin.tryAllocate hR size) fun _ _ _ hR => .ok _ hR) fun _ _ _ hR => .ok _ hR
  | tryAllocate size => exact .bind (hKin.tryAllocate hR size) fun _ _ _ hR => .ok _ hR
  | release pointer => exact .bind (hKin.release hR pointer) fun _ _ _ hR => .ok _ hR
  | reallocate pointer size =>
    exact .bind (.bind (hKin.tryReallocate hR pointer size) fun _ _ _ hR => .ok _ hR)
      fun _ _ _ hR => .ok _ hR
  | tryReallocate pointer size => exact hKin.tryReallocate hR pointer size
  | write pointer start data =>
    exact .bind (hKin.writePayload hR pointer start data) fun _ _ _ hR => .ok _ hR
  | init => exact .bind (hKin.init hR) fun _ _ _ hR => .ok _ hR

end Heaps

end Kinship

namespace Trace.Progress

/-- Replays that have come equally far, on heaps that are related. -/
inductive Beside (R : Heap S → Heap S → Prop) : Progress S → Progress S → Prop where
  | intro {h g : Heap S} {live : Std.TreeMap Nat Live} {requested peak : Nat} (hR : R h g) :
      Beside R ⟨h, live, requested, peak⟩ ⟨g, live, requested, peak⟩

namespace Beside

variable {R : Heap S → Heap S → Prop} {p q : Progress S}

theorem heap (hBeside : Beside R p q) : R p.heap q.heap := by
  cases hBeside with
  | intro hR => exact hR

theorem notePeak (hBeside : Beside R p q) : Beside R p.notePeak q.notePeak := by
  cases hBeside with
  | intro hR => exact .intro hR

variable [Supply S] (hKin : Kinship R) (hBeside : Beside R p q)

include hKin hBeside

theorem allocate (line key size : Nat) :
    Related (Beside R) (p.allocate line key size) (q.allocate line key size) := by
  obtain @⟨h, g, live, requested, peak, hR⟩ := hBeside
  refine .bind (hKin.tryAllocate hR size) fun answer h g hR => ?_
  cases answer with
  | error error => exact .ok _ (.intro hR)
  | ok pointer =>
    -- The old payload only tells how many bytes are not requested any more.
    rcases live[key]? with _ | old
    all_goals
      refine .look fun requested => .bind (hKin.fillPayload hR _ _ _) fun answer h g hR => ?_
      cases answer with
      | error error => exact .ok _ (.intro hR)
      | ok _ => exact .look fun _ => .ok _ (.intro hR)

theorem reallocate (line key size : Nat) :
    Related (Beside R) (p.reallocate line key size) (q.reallocate line key size) := by
  obtain @⟨h, g, live, requested, peak, hR⟩ := hBeside
  simp only [Progress.reallocate]
  cases live[key]? with
  | none => exact .ok _ (.intro hR)
  | some old =>
    dsimp only
    rw [hKin.inspect hR]
    refine .look fun found => ?_
    cases found with
    | error failure => exact .ok _ (.intro hR)
    | ok _ =>
      refine .bind (hKin.tryReallocate hR _ _) fun answer h g hR => ?_
      rcases answer with error | _ | pointer
      · exact .ok _ (.intro hR)
      · exact .look fun _ => .ok _ (.intro hR)
      · dsimp only
        rw [hKin.inspect hR]
        refine .look fun requested => .look fun found => ?_
        cases found with
        | error failure => exact .ok _ (.intro hR)
        | ok _ =>
          refine .bind (hKin.fillPayload hR _ _ _) fun answer h g hR => ?_
          cases answer with
          | error error => exact .ok _ (.intro hR)
          | ok _ => exact .look fun _ => .ok _ (.intro hR)

theorem free (line key : Nat) :
    Related (Beside R) (p.free line key) (q.free line key) := by
  obtain @⟨h, g, live, requested, peak, hR⟩ := hBeside
  simp only [Progress.free]
  cases live[key]? with
  | none => exact .ok _ (.intro hR)
  | some old =>
    dsimp only
    rw [hKin.inspect hR]
    refine .look fun found => ?_
    cases found with
    | error failure => exact .ok _ (.intro hR)
    | ok _ =>
      refine .bind (hKin.release hR _) fun answer h g hR => ?_
      cases answer with
      | error error => exact .ok _ (.intro hR)
      | ok _ => exact .look fun _ => .ok _ (.intro hR)

theorem apply (line : Nat) (op : Op) :
    Related (Beside R) (p.apply line op) (q.apply line op) := by
  cases op with
  | allocate key size => exact hBeside.allocate hKin line key size
  | reallocate key size => exact hBeside.reallocate hKin line key size
  | free key => exact hBeside.free hKin line key

theorem step (check : Bool) (line : Nat) (op : Op) :
    Related (Beside R) (p.step check line op) (q.step check line op) := by
  refine .bind (hBeside.apply hKin line op) fun answer p q hBeside => ?_
  cases answer with
  | error failure => exact .ok _ hBeside
  | ok _ =>
    have hNoted := hBeside.notePeak
    cases check with
    | false => exact .ok _ hNoted
    | true =>
      dsimp only
      rw [if_pos rfl, if_pos rfl, hKin.verify hNoted.heap]
      refine .look fun verdict => ?_
      cases verdict with
      | error violation => exact .ok _ hNoted
      | ok _ => exact .ok _ hNoted

theorem run (check : Bool) (ops : List (Nat × Op)) :
    Related (Beside R) (p.run check ops) (q.run check ops) := by
  induction ops generalizing p q with
  | nil => exact .ok _ hBeside
  | cons entry ops ih =>
    refine .bind (hBeside.step hKin check entry.1 entry.2) fun answer p q hBeside => ?_
    cases answer with
    | error failure => exact .ok _ hBeside
    | ok _ => exact ih hBeside

end Beside

end Trace.Progress

end TaggedHeap
