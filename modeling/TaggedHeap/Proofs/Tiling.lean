import Mathlib.Data.List.Chain
import TaggedHeap.Block.Walk

/-! # Tilings

The blocks of a heap lie back to back. What this says about lists of blocks does not depend on
any memory, and everything that is later said about places in a memory rests on it.
-/

namespace TaggedHeap

namespace Block

/-- What a heap writes into the header and into the footer. -/
def word (b : Block) : Nat := b.size + b.allocated.toNat

theorem word_of_free {b : Block} (h : b.allocated = false) : b.word = b.size := by
  rw [word, h]
  rfl

theorem word_of_allocated {b : Block} (h : b.allocated = true) : b.word = b.size + 1 := by
  rw [word, h]
  rfl

theorem free_tag {b : Block} (h : b.allocated = false) (hMod : b.size % 8 = 0)
    (hSmall : b.size < 2 ^ 32) : Tag.free b.size = .ok ⟨b.word⟩ := by
  rw [Tag.free_eq_ok hMod hSmall, word_of_free h]

theorem allocated_tag {b : Block} (h : b.allocated = true) (hMod : b.size % 8 = 0)
    (hSmall : b.size < 2 ^ 32) : Tag.allocated b.size = .ok ⟨b.word⟩ := by
  rw [Tag.allocated_eq_ok hMod hSmall, word_of_allocated h]

theorem tag_word_size {b : Block} (h : b.size % 8 = 0) : (Tag.mk b.word).size = b.size := by
  cases hb : b.allocated with
  | false => rw [word_of_free hb, Tag.size_mk h]
  | true => rw [word_of_allocated hb, Tag.size_mk_succ h]

theorem tag_word_isAllocated {b : Block} (h : b.size % 8 = 0) :
    (Tag.mk b.word).isAllocated = b.allocated := by
  cases hb : b.allocated with
  | false => rw [word_of_free hb, Tag.isAllocated_mk h]
  | true => rw [word_of_allocated hb, Tag.isAllocated_mk_succ h]

end Block

/-- The blocks of a list fill the range from `lo` to `hi`. -/
def Tiling : Nat → List Block → Nat → Prop
  | lo, [], hi => lo = hi
  | lo, b :: bs, hi => b.offset = lo ∧ 8 ≤ b.size ∧ b.size % 8 = 0 ∧ Tiling (b.offset + b.size) bs hi

namespace Tiling

theorem nil (lo : Nat) : Tiling lo [] lo := rfl

theorem single {b : Block} (hSize : 8 ≤ b.size) (hMod : b.size % 8 = 0) :
    Tiling b.offset [b] (b.offset + b.size) :=
  ⟨rfl, hSize, hMod, rfl⟩

theorem append_iff {lo hi : Nat} {as bs : List Block} :
    Tiling lo (as ++ bs) hi ↔ ∃ mid, Tiling lo as mid ∧ Tiling mid bs hi := by
  induction as generalizing lo with
  | nil =>
    constructor
    · intro h
      exact ⟨lo, rfl, h⟩
    · rintro ⟨mid, rfl, h⟩
      exact h
  | cons a as ih =>
    constructor
    · rintro ⟨hOffset, hSize, hMod, hRest⟩
      obtain ⟨mid, hLeft, hRight⟩ := ih.mp hRest
      exact ⟨mid, ⟨hOffset, hSize, hMod, hLeft⟩, hRight⟩
    · rintro ⟨mid, ⟨hOffset, hSize, hMod, hLeft⟩, hRight⟩
      exact ⟨hOffset, hSize, hMod, ih.mpr ⟨mid, hLeft, hRight⟩⟩

theorem append {lo mid hi : Nat} {as bs : List Block} (hLeft : Tiling lo as mid)
    (hRight : Tiling mid bs hi) : Tiling lo (as ++ bs) hi :=
  append_iff.mpr ⟨mid, hLeft, hRight⟩

theorem cut {lo hi : Nat} {pre post : List Block} {b : Block} (h : Tiling lo (pre ++ b :: post) hi) :
    Tiling lo pre b.offset ∧ 8 ≤ b.size ∧ b.size % 8 = 0 ∧ Tiling (b.offset + b.size) post hi := by
  obtain ⟨mid, hLeft, hOffset, hSize, hMod, hRight⟩ := append_iff.mp h
  subst hOffset
  exact ⟨hLeft, hSize, hMod, hRight⟩

theorem le {lo hi : Nat} {bs : List Block} (h : Tiling lo bs hi) : lo ≤ hi := by
  induction bs generalizing lo with
  | nil => exact le_of_eq h
  | cons b bs ih =>
    obtain ⟨rfl, _, _, hRest⟩ := h
    have hStop := ih hRest
    omega

theorem bounds {lo hi : Nat} {bs : List Block} (h : Tiling lo bs hi) {b : Block} (hb : b ∈ bs) :
    lo ≤ b.offset ∧ b.offset + b.size ≤ hi ∧ 8 ≤ b.size ∧ b.size % 8 = 0 ∧ b.offset % 8 = lo % 8 := by
  induction bs generalizing lo with
  | nil => cases hb
  | cons c bs ih =>
    obtain ⟨rfl, hSize, hMod, hRest⟩ := h
    rcases List.mem_cons.mp hb with rfl | hb
    · exact ⟨le_rfl, hRest.le, hSize, hMod, rfl⟩
    · obtain ⟨hLow, hHigh, hSize', hMod', hOffset⟩ := ih hRest hb
      exact ⟨by omega, hHigh, hSize', hMod', by omega⟩

theorem width_mod {lo hi : Nat} {bs : List Block} (h : Tiling lo bs hi) : hi % 8 = lo % 8 := by
  induction bs generalizing lo with
  | nil =>
    cases h
    rfl
  | cons b bs ih =>
    obtain ⟨rfl, _, hMod, hRest⟩ := h
    rw [ih hRest]
    omega

theorem stop {lo hi : Nat} {bs : List Block} (h : Tiling lo bs hi) {b : Block}
    (hb : b ∈ bs.getLast?) : b.offset + b.size = hi := by
  obtain ⟨l, rfl⟩ := List.getLast?_eq_some_iff.mp hb
  exact h.cut.2.2.2

theorem cover {lo hi j : Nat} {bs : List Block} (h : Tiling lo bs hi) (hLow : lo ≤ j)
    (hHigh : j < hi) : ∃ b ∈ bs, b.offset ≤ j ∧ j < b.offset + b.size := by
  induction bs generalizing lo with
  | nil =>
    cases h
    omega
  | cons b bs ih =>
    obtain ⟨rfl, _, _, hRest⟩ := h
    rcases Nat.lt_or_ge j (b.offset + b.size) with hIn | hPast
    · exact ⟨b, List.mem_cons_self, hLow, hIn⟩
    · obtain ⟨c, hc, hInside⟩ := ih hRest hPast
      exact ⟨c, List.mem_cons_of_mem b hc, hInside⟩

theorem eq_or_apart {lo hi : Nat} {bs : List Block} (h : Tiling lo bs hi) {a b : Block}
    (ha : a ∈ bs) (hb : b ∈ bs) : a = b ∨ a.offset + a.size ≤ b.offset ∨ b.offset + b.size ≤ a.offset := by
  induction bs generalizing lo with
  | nil => cases ha
  | cons c bs ih =>
    obtain ⟨rfl, _, _, hRest⟩ := h
    rcases List.mem_cons.mp ha with hA | hA <;> rcases List.mem_cons.mp hb with hB | hB
    · exact Or.inl (hA.trans hB.symm)
    · exact Or.inr (Or.inl (hA ▸ (hRest.bounds hB).1))
    · exact Or.inr (Or.inr (hB ▸ (hRest.bounds hA).1))
    · exact ih hRest hA hB

theorem eq_of_offset {lo hi : Nat} {bs : List Block} (h : Tiling lo bs hi) {a b : Block}
    (ha : a ∈ bs) (hb : b ∈ bs) (hOffset : a.offset = b.offset) : a = b := by
  have hSizeA := (h.bounds ha).2.2.1
  have hSizeB := (h.bounds hb).2.2.1
  rcases h.eq_or_apart ha hb with hEq | hApart | hApart
  · exact hEq
  · omega
  · omega

theorem mem_others {lo hi : Nat} {pre post : List Block} {b c : Block}
    (h : Tiling lo (pre ++ b :: post) hi) :
    c ≠ b ∧ c ∈ pre ++ b :: post ↔ c ∈ pre ∨ c ∈ post := by
  obtain ⟨hPre, hSize, _, hPost⟩ := h.cut
  constructor
  · rintro ⟨hNe, hc⟩
    exact (List.mem_append.mp hc).imp_right fun hRow => (List.mem_cons.mp hRow).resolve_left hNe
  · rintro (hc | hc)
    · refine ⟨?_, List.mem_append_left (b :: post) hc⟩
      rintro rfl
      have hBounds := hPre.bounds hc
      omega
    · refine ⟨?_, List.mem_append_right pre (List.mem_cons_of_mem b hc)⟩
      rintro rfl
      have hBounds := hPost.bounds hc
      omega

theorem pairwise {lo hi : Nat} {bs : List Block} (h : Tiling lo bs hi) :
    bs.Pairwise fun a b => a.offset + a.size ≤ b.offset := by
  induction bs generalizing lo with
  | nil => exact List.Pairwise.nil
  | cons b bs ih =>
    obtain ⟨rfl, _, _, hRest⟩ := h
    exact List.pairwise_cons.mpr ⟨fun c hc => (hRest.bounds hc).1, ih hRest⟩

theorem nodup_offset {lo hi : Nat} {bs : List Block} (h : Tiling lo bs hi) :
    (bs.map Block.offset).Nodup := by
  rw [List.Nodup, List.pairwise_map]
  have hLarge : ∀ b ∈ bs, 8 ≤ b.size := fun b hb => (h.bounds hb).2.2.1
  refine h.pairwise.imp_of_mem ?_
  intro a b ha _ hApart hEq
  have hSize := hLarge a ha
  omega

end Tiling

end TaggedHeap
