import TaggedHeap.Memory.Lemmas

/-! # Agreement of memories

What a step leaves alone is said by the set of addresses that it may touch. Steps compose by
uniting these sets, and a word is left alone if none of its bytes is touched.
-/

namespace TaggedHeap.Memory

/-- One size, and one value of every byte that is not touched. -/
structure AgreeOff (m n : Memory) (touched : Nat → Prop) : Prop where
  size : n.size = m.size
  byte : ∀ j, ¬ touched j → n.byte j = m.byte j

namespace AgreeOff

variable {m n p : Memory} {s t : Nat → Prop}

theorem refl (m : Memory) (s : Nat → Prop) : m.AgreeOff m s := ⟨rfl, fun _ _ => rfl⟩

theorem mono (h : m.AgreeOff n s) (hSub : ∀ j, s j → t j) : m.AgreeOff n t :=
  ⟨h.size, fun j hj => h.byte j fun hs => hj (hSub j hs)⟩

theorem trans (h₁ : m.AgreeOff n s) (h₂ : n.AgreeOff p s) : m.AgreeOff p s :=
  ⟨h₂.size.trans h₁.size, fun j hj => (h₂.byte j hj).trans (h₁.byte j hj)⟩

theorem word (h : m.AgreeOff n s) {i : Nat} (hOff : ∀ j, i ≤ j → j < i + 4 → ¬ s j) :
    n.word i = m.word i :=
  word_congr h.size fun j hLow hHigh => h.byte j (hOff j hLow hHigh)

theorem setWord {i w : Nat} (h : i + 4 ≤ m.size) (hSub : ∀ j, i ≤ j → j < i + 4 → s j) :
    m.AgreeOff (m.setWord i w) s := by
  refine ⟨size_setWord m i w, ?_⟩
  intro j hj
  apply byte_setWord_of_disjoint h
  apply Decidable.byContradiction
  intro hInside
  exact hj (hSub j (by omega) (by omega))

theorem then_setWord (h : m.AgreeOff n s) {i w : Nat} (hi : i + 4 ≤ m.size)
    (hSub : ∀ j, i ≤ j → j < i + 4 → s j) : m.AgreeOff (n.setWord i w) s :=
  h.trans (setWord (by rwa [h.size]) hSub)

/-- A word that has been touched and has its value again need not count as touched. -/
theorem drop {i : Nat} (h : m.AgreeOff n fun j => s j ∨ i ≤ j ∧ j < i + 4) (hi : i + 4 ≤ m.size)
    (hWord : n.word i = m.word i) : m.AgreeOff n s := by
  refine ⟨h.size, fun j hj => ?_⟩
  by_cases hIn : i ≤ j ∧ j < i + 4
  · exact byte_congr h.size hi hWord hIn.1 hIn.2
  · exact h.byte j fun hTouched => hTouched.elim hj hIn

end AgreeOff

end TaggedHeap.Memory
