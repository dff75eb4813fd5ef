import TaggedHeap.Proofs.Account

/-! # What a request comes down to

A request that does not initialise the heap is one operation, and that is a single burst of acts,
unless a block moves: the new block is allocated before the old one is given back, so there is a heap
midway at which both are held.
-/

namespace TaggedHeap

namespace Heap

variable {S : Type} {h h' : Heap S} {s : Shape} {b : Block} {size : Nat}

/-- How an operation gets from one heap to the other, which is in one go unless there is a heap
midway. -/
inductive Passes (h : Heap S) : Checked (Option (Heap S)) → Heap S → Prop where
  | straight {h' : Heap S} (hBurst : h.account.Burst h'.account) : Passes h (.ok none) h'
  | midway {g h' : Heap S} {t : Shape} (hRest : g.memory.AtRest t)
      (hBurst : h.account.Burst g.account) (hBurst' : g.account.Burst h'.account) :
      Passes h (.ok (some g)) h'

theorem Passes.acts {run : Checked (Option (Heap S))} (hPasses : h.Passes run h') :
    h.account.Acts h'.account := by
  cases hPasses with
  | straight hBurst => exact hBurst.acts
  | midway _ hBurst hBurst' => exact hBurst.acts.trans hBurst'.acts

variable [Supply S]

/-- The heap inside a reallocation at which both blocks are allocated: the payload has been copied,
and the old block has not been given back yet. -/
def midway (h : Heap S) (pointer : Option Nat) (size : Nat) : Checked (Option (Heap S)) := do
  match pointer with
  | none => return none
  | some old =>
    if size = 0 then
      return none
    match ← h.usableSize old with
    | .error _ => return none
    | .ok usable =>
      match ← h.tryAllocate size with
      | (.error _, _) => return none
      | (.ok new, h) => return some (← h.edit (·.move old new (min size usable)))

/-- The heap midway through a request, if it gets there in two steps. -/
def between (h : Heap S) : Request → Checked (Option (Heap S))
  | .reallocate pointer size | .tryReallocate pointer size => h.midway pointer size
  | _ => return none

/-- From the heap midway a reallocation only has to give the old block back. -/
theorem tryReallocate_of_midway {g : Heap S} {old : Nat}
    (hMidway : h.midway (some old) size = .ok (some g)) : ∃ new copied,
      h.tryReallocate (some old) size = g.release old >>= fun r => match r with
        | (.error error, h) => pure (.error error, h)
        | (.ok (), h) => pure (.ok (some new), (h.tally .reallocation).log (.moved old new copied)) := by
  unfold midway at hMidway
  dsimp only at hMidway
  split at hMidway
  · cases hMidway
  rename_i hSize
  rw [bind_eq_ok_iff] at hMidway
  obtain ⟨usable, hUsable, hMidway⟩ := hMidway
  cases usable with
  | error error => cases hMidway
  | ok usable =>
    dsimp only at hMidway
    rw [bind_eq_ok_iff] at hMidway
    obtain ⟨⟨error | new, f⟩, hAllocate, hMidway⟩ := hMidway
    · cases hMidway
    · dsimp only at hMidway
      rw [bind_eq_ok_iff] at hMidway
      obtain ⟨_, hMove, hEq⟩ := hMidway
      cases hEq
      refine ⟨new, min size usable, ?_⟩
      unfold tryReallocate
      dsimp only
      rw [if_neg hSize, hUsable, ok_bind]
      dsimp only
      rw [hAllocate, ok_bind]
      dsimp only
      rw [hMove]
      rfl

theorem passes_tryReallocate_live (hRest : h.memory.AtRest s) (hConfig : h.config.Roomy)
    (hb : b ∈ s.blocks) (hAllocated : b.allocated = true) (hSize : size ≠ 0)
    {answer : Except HeapError (Option Nat)}
    (hRun : h.tryReallocate (some (b.offset + 4)) size = .ok (answer, h')) :
    h.Passes (h.midway (some (b.offset + 4)) size) h' := by
  have hBounds := hRest.shows.bounds hb
  have hUsable := usableSize_atRest hRest hb hAllocated
  rcases tryAllocate_atRest hRest hConfig size with ⟨error, g, hAllocate, _⟩ |
      ⟨_, g, hAllocate, _, c, t, rfl, hRoom, hGains⟩
  · rw [tryReallocate_of_refused hRest hb hAllocated hSize hAllocate] at hRun
    cases hRun
    rw [midway, if_neg hSize, hUsable, ok_bind]
    dsimp only
    rw [hAllocate]
    exact .straight (burst_tryAllocate hRest hConfig hAllocate)
  · have hC : c ∈ t.blocks := (hGains.mem_iff c hGains.allocated).mpr (Or.inl rfl)
    have hB : b ∈ t.blocks := (hGains.mem_iff b hAllocated).mpr (Or.inr hb)
    have hBoundsC := hGains.atRest.shows.bounds hC
    have hBoundsB := hGains.atRest.shows.bounds hB
    obtain ⟨n, hMove, hAgree, _⟩ := Memory.move_spec (m := g.memory) (b.offset + 4)
      (c.offset + 4) (min size (b.size - 8)) (by omega) (by omega)
    have hRest' : n.AtRest t := hGains.atRest.refill hC hGains.allocated (hAgree.mono (by omega))
    have hMidway : h.midway (some (b.offset + 4)) size = .ok (some (g.withMemory n)) := by
      rw [midway, if_neg hSize, hUsable, ok_bind]
      dsimp only
      rw [hAllocate, ok_bind]
      dsimp only
      rw [edit_eq_ok (f := (·.move _ _ _)) hMove]
      rfl
    obtain ⟨new, copied, hSame⟩ := tryReallocate_of_midway hMidway
    obtain ⟨_, _, _, _, _, hRelease⟩ := release_eq (h := g.withMemory n) hRest' hB hAllocated
    rw [hSame, hRelease] at hRun
    cases hRun
    have hLost := act_release (h := g.withMemory n) hRest' hB hAllocated hRelease
    rw [hMidway]
    refine .midway (g := g.withMemory n) hRest' ?_ ?_
    · rw [account_withMemory hGains.atRest hRest' hAgree.size]
      exact burst_tryAllocate hRest hConfig hAllocate
    · exact (act_moved (b.offset + 4) new copied).burst.after (.single hLost) rfl

theorem passes_tryReallocate (hRest : h.memory.AtRest s) (hConfig : h.config.Roomy)
    {pointer : Option Nat} (hTakes : ∀ p ∈ pointer, h.Takes s p)
    {answer : Except HeapError (Option Nat)}
    (hRun : h.tryReallocate pointer size = .ok (answer, h')) :
    h.Passes (h.midway pointer size) h' := by
  cases pointer with
  | none =>
    rw [tryReallocate, bind_eq_ok_iff] at hRun
    obtain ⟨⟨allocated, g⟩, hAllocate, hRun⟩ := hRun
    have hHeap : g = h' := by
      cases allocated with
      | error error =>
        cases error with
        | zeroSize => cases hRun; rfl
        | _ => cases hRun; rfl
      | ok new => cases hRun; rfl
    exact .straight (hHeap ▸ burst_tryAllocate hRest hConfig hAllocate)
  | some p =>
    rcases eq_or_ne size 0 with rfl | hSize
    · rw [tryReallocate] at hRun
      dsimp only at hRun
      rw [if_pos rfl, bind_eq_ok_iff] at hRun
      obtain ⟨⟨released, g⟩, hRelease, hRun⟩ := hRun
      have hHeap : g = h' := by
        cases released with
        | error error => cases hRun; rfl
        | ok _ => cases hRun; rfl
      exact .straight (hHeap ▸ burst_release hRest (hTakes p rfl) hRelease)
    rcases hTakes p rfl with hReject | ⟨b, hb, hAllocated, rfl⟩
    · obtain ⟨error, hUsable⟩ := usableSize_of_rejects hReject
      rw [tryReallocate] at hRun
      dsimp only at hRun
      rw [if_neg hSize, hUsable] at hRun
      cases hRun
      rw [midway, if_neg hSize, hUsable]
      exact .straight (.refl _)
    · exact passes_tryReallocate_live hRest hConfig hb hAllocated hSize hRun

/-- The operation behind a request, with what it answers and the heap after it. -/
inductive Performs (h : Heap S) (s : Shape) :
    Request → Except HeapError (Option Nat) → Heap S → Prop where
  | allocate {size : Nat} {answer : Except HeapError Nat} {h' : Heap S}
      (hRun : h.tryAllocate size = .ok (answer, h')) :
      Performs h s (.allocate size) (.ok answer.toOption) h'
  | tryAllocate {size : Nat} {answer : Except HeapError Nat} {h' : Heap S}
      (hRun : h.tryAllocate size = .ok (answer, h')) :
      Performs h s (.tryAllocate size) (answer.map some) h'
  | release {p : Nat} {answer : Except HeapError Unit} {h' : Heap S} (hTakes : h.Takes s p)
      (hRun : h.release p = .ok (answer, h')) :
      Performs h s (.release p) (answer.map fun _ => none) h'
  | reallocate {pointer : Option Nat} {size : Nat} {answer : Except HeapError (Option Nat)}
      {h' : Heap S} (hTakes : ∀ p ∈ pointer, h.Takes s p)
      (hRun : h.tryReallocate pointer size = .ok (answer, h')) :
      Performs h s (.reallocate pointer size) (.ok answer.toOption.join) h'
  | tryReallocate {pointer : Option Nat} {size : Nat} {answer : Except HeapError (Option Nat)}
      {h' : Heap S} (hTakes : ∀ p ∈ pointer, h.Takes s p)
      (hRun : h.tryReallocate pointer size = .ok (answer, h')) :
      Performs h s (.tryReallocate pointer size) answer h'
  | write {b : Block} {start : Nat} {data : ByteArray} {answer : Except HeapError Unit}
      {h' : Heap S} (hb : b ∈ s.blocks) (hAllocated : b.allocated = true)
      (hFits : start + data.size ≤ b.size - 8)
      (hRun : h.writePayload (b.offset + 4) start data = .ok (answer, h')) :
      Performs h s (.write (b.offset + 4) start data) (answer.map fun _ => none) h'

end Heap

namespace Session

variable {S : Type} [Supply S] {s u : Session S} {t : Shape} {r : Request}

/-- The operation that a request other than an initialisation comes down to. Its pointer can be
taken, and it is written into an allocated block. -/
theorem Steady.performs (hSteady : s.Steady t) (hAllows : s.Allows r) (hInit : r ≠ .init)
    (hStep : s.step r = .ok u) : ∃ answer, s.heap.perform r = .ok (answer, u.heap) ∧
      s.heap.Performs t r answer u.heap := by
  obtain ⟨answer, hPerform⟩ := perform_of_step hStep
  refine ⟨answer, hPerform, ?_⟩
  cases r with
  | allocate size =>
    rw [Heap.perform, Heap.allocate, bind_assoc, bind_eq_ok_iff] at hPerform
    obtain ⟨⟨_, _⟩, hRun, hEq⟩ := hPerform
    cases hEq
    exact .allocate hRun
  | tryAllocate size =>
    rw [Heap.perform, bind_eq_ok_iff] at hPerform
    obtain ⟨⟨_, _⟩, hRun, hEq⟩ := hPerform
    cases hEq
    exact .tryAllocate hRun
  | release p =>
    rw [Heap.perform, bind_eq_ok_iff] at hPerform
    obtain ⟨⟨_, _⟩, hRun, hEq⟩ := hPerform
    cases hEq
    exact .release (hSteady.known hAllows) hRun
  | reallocate pointer size =>
    rw [Heap.perform, Heap.reallocate, bind_assoc, bind_eq_ok_iff] at hPerform
    obtain ⟨⟨_, _⟩, hRun, hEq⟩ := hPerform
    cases hEq
    exact .reallocate (fun p hp => hSteady.known (hAllows p hp)) hRun
  | tryReallocate pointer size =>
    exact .tryReallocate (fun p hp => hSteady.known (hAllows p hp)) hPerform
  | write p start data =>
    rw [Heap.perform, bind_eq_ok_iff] at hPerform
    obtain ⟨⟨_, _⟩, hRun, hEq⟩ := hPerform
    cases hEq
    obtain ⟨g, hg, rfl, hFits⟩ := hAllows
    obtain ⟨b, hb, hAllocated, hHolds⟩ := hSteady.grant g hg
    have hUsable := hHolds.usable
    rw [hHolds.pointer] at hRun ⊢
    exact .write hb hAllocated (by omega) hRun
  | init => exact absurd rfl hInit

/-- Whatever is asked of a heap between two initialisations comes down to acts. -/
theorem Steady.passes (hSteady : s.Steady t) (hAllows : s.Allows r) (hInit : r ≠ .init)
    (hStep : s.step r = .ok u) : s.heap.Passes (s.heap.between r) u.heap := by
  have hRest := hSteady.atRest
  obtain ⟨_, _, hPerforms⟩ := hSteady.performs hAllows hInit hStep
  cases hPerforms with
  | allocate hRun => exact .straight (Heap.burst_tryAllocate hRest hSteady.config hRun)
  | tryAllocate hRun => exact .straight (Heap.burst_tryAllocate hRest hSteady.config hRun)
  | release hTakes hRun => exact .straight (Heap.burst_release hRest hTakes hRun)
  | reallocate hTakes hRun => exact Heap.passes_tryReallocate hRest hSteady.config hTakes hRun
  | tryReallocate hTakes hRun => exact Heap.passes_tryReallocate hRest hSteady.config hTakes hRun
  | write hb hAllocated hFits hRun =>
    refine .straight ?_
    rw [Heap.account_write hRest hb hAllocated hFits hRun]
    exact .refl _

theorem Steady.acts (hSteady : s.Steady t) (hAllows : s.Allows r) (hInit : r ≠ .init)
    (hStep : s.step r = .ok u) : s.heap.account.Acts u.heap.account :=
  (hSteady.passes hAllows hInit hStep).acts

/-- An initialisation starts over, with a chunk more unless it is refused. -/
theorem Steady.account_init (hSteady : s.Steady t) (hStep : s.step .init = .ok u) :
    (∃ error h, s.heap.init = .ok (.error error, h) ∧ u.heap.account = s.heap.account.reset) ∨
      ∃ h, s.heap.init = .ok (.ok (), h) ∧
        u.heap.account = s.heap.account.restart s.heap.config.chunkSize := by
  have hLow := hSteady.atRest.shows.le_size
  have hMod := hSteady.atRest.shows.size_mod
  have hSize : s.heap.currentSize = s.heap.memory.size := rfl
  have hPrepare := Heap.prepare_of_sized (h := s.heap) (by omega) (by omega)
  rcases Heap.init_account hPrepare hSteady.config hSteady.atRest.size_cases (by omega)
      hSteady.atRest.shows.size_le with ⟨error, h, hRun, hAccount⟩ | ⟨h, hRun, hAccount⟩
  · rw [Session.step, hRun] at hStep
    cases hStep
    exact Or.inl ⟨error, h, hRun, hAccount⟩
  · rw [Session.step, hRun] at hStep
    cases hStep
    exact Or.inr ⟨h, hRun, hAccount⟩

/-- An arena never shrinks. -/
theorem Steady.size_le (hSteady : s.Steady t) (hReach : s.Reaches u) :
    s.heap.currentSize ≤ u.heap.currentSize := by
  induction hReach with
  | start => exact le_rfl
  | @step v w r hReach hAllows hStep ih =>
    refine ih.trans ?_
    obtain ⟨x, hSteady'⟩ := hSteady.reaches hReach
    change v.heap.account.size ≤ w.heap.account.size
    by_cases hInit : r = .init
    · subst hInit
      rcases hSteady'.account_init hStep with ⟨_, _, _, hAccount⟩ | ⟨_, _, hAccount⟩
      · rw [hAccount]
        exact le_rfl
      · rw [hAccount]
        exact Nat.le_add_right _ _
    · exact (hSteady'.acts hAllows hInit hStep).size_le

end Session

end TaggedHeap
