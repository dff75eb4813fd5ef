import Mathlib.Data.List.Basic
import TaggedHeap.Bucket.Chain

/-! # Threads

The chain of a bucket is a doubly linked list inside the memory that it describes. A thread ties
such a chain to a list of offsets. Pushing and unlinking a block are then the two edits of a list,
and each leaves every byte alone that is not a link of the block, a link of its neighbours in the
list, or the slot of the bucket.
-/

namespace TaggedHeap.Memory

/-- The word at `entry` leads to the first block of the list, the link of each block to the next
one, and the last link nowhere. The first block links back to `back`, the others to the one
before. -/
def Thread (m : Memory) : Nat → Nat → List Nat → Prop
  | entry, _, [] => m.word entry = 0
  | entry, back, b :: l =>
      b ≠ 0 ∧ m.word entry = b ∧ m.word (b + 8) = back ∧ m.Thread (b + 4) b l

namespace Thread

variable {m n : Memory} {entry back : Nat} {l : List Nat}

theorem head (h : m.Thread entry back l) : m.word entry = l.headD 0 := by
  cases l with
  | nil => exact h
  | cons b l => exact h.2.1

theorem congr (h : m.Thread entry back l) (hEntry : n.word entry = m.word entry)
    (hNext : ∀ o ∈ l, n.word (o + 4) = m.word (o + 4))
    (hPrev : ∀ o ∈ l, n.word (o + 8) = m.word (o + 8)) : n.Thread entry back l := by
  induction l generalizing entry back with
  | nil => exact hEntry.trans h
  | cons b l ih =>
    obtain ⟨hZero, hWord, hBack, hRest⟩ := h
    refine ⟨hZero, hEntry.trans hWord, (hPrev b List.mem_cons_self).trans hBack, ?_⟩
    apply ih hRest (hNext b List.mem_cons_self)
    · intro o ho
      exact hNext o (List.mem_cons_of_mem b ho)
    · intro o ho
      exact hPrev o (List.mem_cons_of_mem b ho)

/-- The same blocks reached from another word and linked back to another block. -/
theorem rehead {entry' back' : Nat} (h : m.Thread entry back l)
    (hEntry : n.word entry' = m.word entry)
    (hFirst : ∀ o ∈ l.head?, n.word (o + 8) = back')
    (hNext : ∀ o ∈ l, n.word (o + 4) = m.word (o + 4))
    (hPrev : ∀ o ∈ l.tail, n.word (o + 8) = m.word (o + 8)) : n.Thread entry' back' l := by
  cases l with
  | nil => exact hEntry.trans h
  | cons b l =>
    obtain ⟨hZero, hWord, _, hRest⟩ := h
    refine ⟨hZero, hEntry.trans hWord, hFirst b rfl, ?_⟩
    apply hRest.congr (hNext b List.mem_cons_self) ?_ hPrev
    intro o ho
    exact hNext o (List.mem_cons_of_mem b ho)

theorem of_append {p q : Nat} {l₁ l₂ : List Nat} (h : m.Thread entry back (l₁ ++ p :: q :: l₂)) :
    m.word (p + 4) = q ∧ m.word (q + 8) = p ∧ m.Thread (q + 4) q l₂ := by
  induction l₁ generalizing entry back with
  | nil =>
    obtain ⟨_, _, _, _, hWord, hBack, hRest⟩ := h
    exact ⟨hWord, hBack, hRest⟩
  | cons b l₁ ih => exact ih h.2.2.2

/-- What the links of a block in the middle of a thread say. -/
theorem read {b : Nat} {l₁ l₂ : List Nat} (h : m.Thread entry back (l₁ ++ b :: l₂)) :
    m.word (b + 8) = l₁.getLastD back ∧ m.Thread (b + 4) b l₂ ∧
      (l₁.getLastD back = back ∧ m.word entry = b ∨ l₁.getLastD back ∈ l₁) := by
  rcases l₁.eq_nil_or_concat' with rfl | ⟨l, v, rfl⟩
  · obtain ⟨_, hWord, hPrev, hRest⟩ := h
    exact ⟨hPrev, hRest, Or.inl ⟨rfl, hWord⟩⟩
  · rw [List.append_assoc] at h
    obtain ⟨_, hPrev, hRest⟩ := h.of_append
    rw [List.getLastD_concat]
    exact ⟨hPrev, hRest, Or.inr List.mem_concat_self⟩

/-- Leaving out the block after `p`: the link of `p` takes over that of the block. -/
theorem splice {p q : Nat} {l₁ l₂ : List Nat} (h : m.Thread entry back (l₁ ++ p :: q :: l₂))
    (hEntry : n.word entry = m.word entry) (hLink : n.word (p + 4) = m.word (q + 4))
    (hBack : ∀ o ∈ l₂.head?, n.word (o + 8) = p)
    (hNext : ∀ o ∈ l₁ ++ l₂, n.word (o + 4) = m.word (o + 4))
    (hPrev : ∀ o ∈ l₁ ++ p :: l₂.tail, n.word (o + 8) = m.word (o + 8)) :
    n.Thread entry back (l₁ ++ p :: l₂) := by
  induction l₁ generalizing entry back with
  | nil =>
    obtain ⟨hZero, hWord, hFirst, _, _, _, hRest⟩ := h
    refine ⟨hZero, hEntry.trans hWord, (hPrev p List.mem_cons_self).trans hFirst, ?_⟩
    apply hRest.rehead hLink hBack hNext
    intro o ho
    exact hPrev o (List.mem_cons_of_mem p ho)
  | cons b l₁ ih =>
    obtain ⟨hZero, hWord, hFirst, hRest⟩ := h
    refine ⟨hZero, hEntry.trans hWord, (hPrev b List.mem_cons_self).trans hFirst, ?_⟩
    apply ih hRest (hNext b List.mem_cons_self)
    · intro o ho
      exact hNext o (List.mem_cons_of_mem b ho)
    · intro o ho
      exact hPrev o (List.mem_cons_of_mem b ho)

/-- Leaving any block out: what led to it takes over its link, and the block after it links back to
the one before. -/
theorem leave {b : Nat} {l₁ l₂ : List Nat} (h : m.Thread entry back (l₁ ++ b :: l₂))
    (hFirst : l₁ = [] → n.word entry = m.word (b + 4))
    (hEntry : l₁ ≠ [] → n.word entry = m.word entry)
    (hLink : ∀ u ∈ l₁.getLast?, n.word (u + 4) = m.word (b + 4))
    (hBack : ∀ o ∈ l₂.head?, n.word (o + 8) = l₁.getLastD back)
    (hNext : ∀ o ∈ l₁.dropLast ++ l₂, n.word (o + 4) = m.word (o + 4))
    (hPrev : ∀ o ∈ l₁ ++ l₂.tail, n.word (o + 8) = m.word (o + 8)) :
    n.Thread entry back (l₁ ++ l₂) := by
  rcases l₁.eq_nil_or_concat' with rfl | ⟨l, u, rfl⟩
  · exact h.read.2.1.rehead (hFirst rfl) hBack hNext hPrev
  · rw [List.getLastD_concat] at hBack
    rw [List.dropLast_concat] at hNext
    rw [← List.append_cons] at h hPrev ⊢
    exact h.splice (hEntry (List.append_ne_nil_of_right_ne_nil l (List.cons_ne_nil u [])))
      (hLink u List.getLast?_concat) hBack hNext hPrev

end Thread

end TaggedHeap.Memory
