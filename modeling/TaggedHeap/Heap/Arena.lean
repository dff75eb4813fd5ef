import TaggedHeap.Heap.Error
import TaggedHeap.Memory.Basic

/-!
# Arenas

An arena is a memory that can grow at its high end, and nowhere else. Whether it may grow is up to
a supply; an arena with a `Cap` grows up to a fixed size.
-/

namespace TaggedHeap

/-- Something that grants or refuses room. -/
class Supply (S : Type) where
  /-- The answer to an arena of `size` bytes that asks for `increment` more, and the supply after
  it, which may change either way. -/
  request : S → (size increment : Nat) → Except HeapError Unit × S

/-- A supply for arenas of up to `limit` bytes. -/
structure Cap where
  limit : Nat
  deriving DecidableEq, Repr

def Cap.admits (c : Cap) (size increment : Nat) : Except HeapError Unit :=
  if size + increment ≤ c.limit then .ok () else .error .outOfMemory

instance : Supply Cap where
  request c size increment := (c.admits size increment, c)

/-- A growing memory. -/
structure Arena (S : Type) where
  memory : Memory
  supply : S
  /-- Where the arena starts in an address space of its user. Offsets do not depend on it. -/
  lowBound : Nat := 0

namespace Arena

variable {S : Type}

def fresh (supply : S) : Arena S := { memory := .empty, supply }

def size (a : Arena S) : Nat := a.memory.size

/-- The end of the arena in the address space of its user. -/
def highBound (a : Arena S) : Nat := a.lowBound + a.size

/-- Grows the arena by zero bytes and returns where they start. A growth that the supply grants is
still refused if the result could not be addressed. -/
def grow [Supply S] (a : Arena S) (increment : Nat) : Except HeapError Nat × Arena S :=
  match a with
  | ⟨memory, supply, lowBound⟩ =>
    let start := memory.size
    match Supply.request supply start increment with
    | (.error error, supply) => (.error error, ⟨memory, supply, lowBound⟩)
    | (.ok (), supply) =>
      match memory.extend? increment with
      | some memory => (.ok start, ⟨memory, supply, lowBound⟩)
      | none => (.error .outOfMemory, ⟨memory, supply, lowBound⟩)

variable [Supply S]

theorem grow_ok {a b : Arena S} {increment start : Nat} (h : a.grow increment = (.ok start, b)) :
    start = a.size ∧ a.memory.extend? increment = some b.memory ∧ b.lowBound = a.lowBound ∧
      Supply.request a.supply a.size increment = (.ok (), b.supply) := by
  obtain ⟨memory, supply, lowBound⟩ := a
  change _ ∧ memory.extend? increment = _ ∧ _ ∧ Supply.request supply memory.size increment = _
  rcases request : Supply.request supply memory.size increment with ⟨answer, next⟩
  cases answer with
  | error error => simp [grow, request] at h
  | ok granted =>
    cases extended : memory.extend? increment with
    | none => simp [grow, request, extended] at h
    | some grown =>
      simp only [grow, request, extended, Prod.mk.injEq, Except.ok.injEq] at h
      obtain ⟨rfl, rfl⟩ := h
      exact ⟨rfl, rfl, rfl, rfl⟩

theorem grow_error {a b : Arena S} {increment : Nat} {error : HeapError}
    (h : a.grow increment = (.error error, b)) :
    b.memory = a.memory ∧ b.lowBound = a.lowBound := by
  obtain ⟨memory, supply, lowBound⟩ := a
  rcases request : Supply.request supply memory.size increment with ⟨answer, next⟩
  cases answer with
  | error refusal =>
    simp only [grow, request, Prod.mk.injEq, Except.error.injEq] at h
    obtain ⟨_, rfl⟩ := h
    exact ⟨rfl, rfl⟩
  | ok granted =>
    cases extended : memory.extend? increment with
    | none =>
      simp only [grow, request, extended, Prod.mk.injEq, Except.error.injEq] at h
      obtain ⟨_, rfl⟩ := h
      exact ⟨rfl, rfl⟩
    | some grown => simp [grow, request, extended] at h

end Arena

end TaggedHeap
