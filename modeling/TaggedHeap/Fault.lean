/-!
# Faults and checked arithmetic

Every step on raw memory is a value of `Checked`: it either delivers its result or names the
fault that stopped it. A fault is never an answer of the heap. It marks the places where an index
would leave the memory, a machine word would wrap, a value would lose bits, a structural assumption
would be broken or a search would never end, so "this operation is safe" is the statement that no
fault arises. The command that replays traces has one more, an argument that it cannot read.
-/

-- Powers of numbers are those of the core library, whatever else a module imports.
attribute [default_instance 20000] instPowNat

namespace TaggedHeap

/-- What can go wrong in a step on raw memory, or with the arguments of the command. -/
inductive Fault where
  /-- An access reaches past the end of the memory or of a payload. -/
  | outOfBounds
  | overflow
  | underflow
  /-- A value does not fit the 32 bit word it is written to. -/
  | wideWord
  | unalignedSize
  /-- No bucket is wide enough for a block. -/
  | noBucket
  /-- A block without a predecessor is not the head of its bucket. -/
  | staleHead
  /-- A chain runs on for more nodes than the memory can hold. -/
  | endlessChain
  /-- An argument of the command is no text. -/
  | notText
  deriving DecidableEq, Repr

/-- The result of a step that may run into a fault. -/
abbrev Checked := Except Fault

/-- The addition of two 64 bit words. -/
def plus (a b : Nat) : Checked Nat :=
  if a + b < 2 ^ 64 then .ok (a + b) else .error .overflow

/-- The subtraction of two 64 bit words. -/
def minus (a b : Nat) : Checked Nat :=
  if b ≤ a then .ok (a - b) else .error .underflow

/-- Goes on only where `p` holds. -/
def ensure (p : Prop) [Decidable p] (fault : Fault) : Checked Unit :=
  if p then .ok () else .error fault

@[simp] theorem ok_bind {α β : Type} (a : α) (f : α → Checked β) :
    ((Except.ok a : Checked α) >>= f) = f a :=
  rfl

@[simp] theorem error_bind {α β : Type} (fault : Fault) (f : α → Checked β) :
    ((Except.error fault : Checked α) >>= f) = .error fault :=
  rfl

theorem bind_eq_ok_iff {ε α β : Type} {a : Except ε α} {f : α → Except ε β} {b : β} :
    (a >>= f) = .ok b ↔ ∃ x, a = .ok x ∧ f x = .ok b := by
  cases a with
  | ok x =>
    constructor
    · intro h
      exact ⟨x, rfl, h⟩
    · rintro ⟨_, ⟨⟩, h⟩
      exact h
  | error fault =>
    constructor
    · intro h
      cases h
    · rintro ⟨_, ⟨⟩, _⟩

/-- A computation whose result passes a check has a result. -/
theorem exists_of_any {ε α : Type} {run : Except ε α} {check : α → Bool}
    (h : run.toOption.any check = true) : ∃ a, run = .ok a ∧ check a = true := by
  cases run with
  | error _ => cases h
  | ok a => exact ⟨a, rfl, h⟩

theorem plus_eq_ok {a b : Nat} (h : a + b < 2 ^ 64) : plus a b = .ok (a + b) :=
  if_pos h

theorem minus_eq_ok {a b : Nat} (h : b ≤ a) : minus a b = .ok (a - b) :=
  if_pos h

theorem ensure_eq_ok {p : Prop} [Decidable p] {fault : Fault} (h : p) :
    ensure p fault = .ok () :=
  if_pos h

theorem plus_eq_ok_iff {a b c : Nat} : plus a b = .ok c ↔ a + b < 2 ^ 64 ∧ c = a + b := by
  unfold plus
  split <;> grind

theorem minus_eq_ok_iff {a b c : Nat} : minus a b = .ok c ↔ b ≤ a ∧ c = a - b := by
  unfold minus
  split <;> grind

end TaggedHeap
