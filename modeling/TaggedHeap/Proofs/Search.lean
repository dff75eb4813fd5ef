import Mathlib.Data.List.Perm.Subperm
import TaggedHeap.Bucket.Search
import TaggedHeap.Proofs.Settled

/-! # Searching a shape

On a memory that shows a shape the search does not run in circles, and what it answers is the first
block that is large enough, in the order of the buckets from that of the size on.
-/

namespace TaggedHeap

theorem Bucket.ofSize?_mono {size size' k : Nat} (hLe : size ≤ size')
    (hBucket : ofSize? size' = some k) : ∃ j ≤ k, ofSize? size = some j := by
  obtain ⟨hk, hFits, _⟩ := ofSize?_eq_some_iff.mp hBucket
  cases hFirst : ofSize? size with
  | none =>
    rw [ofSize?, List.find?_eq_none] at hFirst
    exact absurd (decide_eq_true (hLe.trans hFits)) (hFirst k (List.mem_range.mpr hk))
  | some j =>
    refine ⟨j, ?_, rfl⟩
    by_contra hLess
    have hSmall := (ofSize?_eq_some_iff.mp hFirst).2.2 k (by omega)
    omega

namespace Shape

def blockAt (s : Shape) (offset : Nat) : Option Block := s.blocks.find? (·.offset = offset)

/-- The first block that is large enough, in the chains of the bucket for the size and of those
after it. -/
def fit (s : Shape) (size : Nat) : Option Block :=
  match Bucket.ofSize? size with
  | some first =>
    (((List.range' first (32 - first)).flatMap s.chains).filterMap s.blockAt).find? (size ≤ ·.size)
  | none => none

/-- The candidates in some of the buckets, in the order of the search. -/
def candidates (s : Shape) (buckets : List Nat) : List Block :=
  (buckets.flatMap s.chains).filterMap s.blockAt

theorem fit_eq {s : Shape} {size k first : Nat} (hStart : Bucket.ofSize? size = some first) (hFirst : first ≤ k)
    (hk : k < 32) : s.fit size =
      ((s.candidates (List.range' first (k - first))).find? (size ≤ ·.size)).or
        ((s.candidates (List.range' k (32 - k))).find? (size ≤ ·.size)) := by
  have hRange : List.range' first (32 - first) =
      List.range' first (k - first) ++ List.range' k (32 - k) := by
    obtain ⟨d, rfl⟩ := Nat.exists_eq_add_of_le hFirst
    rw [Nat.add_sub_cancel_left, List.range'_append_1]
    congr 1
    omega
  unfold fit candidates
  rw [hStart]
  dsimp only
  rw [hRange, List.flatMap_append, List.filterMap_append, List.find?_append]

end Shape

namespace Memory

variable {m : Memory} {chains : Chains} {T : Tagging}

theorem Shows.blockAt {s : Shape} {b : Block} (h : m.Shows s T) (hb : b ∈ s.blocks) :
    s.blockAt b.offset = some b := by
  unfold Shape.blockAt
  cases hFound : s.blocks.find? (·.offset = b.offset) with
  | none => exact absurd (decide_eq_true rfl) (List.find?_eq_none.mp hFound b hb)
  | some c =>
    have hOffset := List.find?_some hFound
    rw [decide_eq_true_eq] at hOffset
    rw [h.tiling.eq_of_offset (List.mem_of_find?_eq_some hFound) hb hOffset]

theorem searchChain_thread {limit entry back : Nat} {l : List Nat}
    (h : m.Thread entry back l) (size : Nat) (hInside : ∀ o ∈ l, o + 8 ≤ m.size) (hLimit : l.length ≤ limit) :
    m.searchChain size limit (blockNamed (m.word entry)) =
      .ok (l.find? fun o => size ≤ (m.tag o).size) := by
  induction l generalizing limit entry back with
  | nil =>
    rw [show m.word entry = 0 from h, blockNamed_zero, searchChain]
    rfl
  | cons b l ih =>
    obtain ⟨hZero, hEntry, _, hRest⟩ := h
    obtain ⟨limit, rfl⟩ : ∃ n, limit = n + 1 := ⟨limit - 1, by rw [List.length_cons] at hLimit; omega⟩
    have hIn := hInside b List.mem_cons_self
    rw [hEntry, blockNamed_of_ne hZero, searchChain, next_eq_ok hIn, ok_bind,
      sizeAt_eq_ok (by omega), ok_bind]
    by_cases hFits : size ≤ (m.tag b).size
    · rw [if_pos hFits, List.find?_cons, decide_eq_true hFits]
      rfl
    · rw [if_neg hFits, List.find?_cons, decide_eq_false hFits]
      exact ih hRest (fun o ho => hInside o (List.mem_cons_of_mem b ho)) (Nat.le_of_succ_le_succ hLimit)

namespace Threaded

theorem length_le (h : m.Threaded chains) {k : Nat} (hk : k < 32) : (chains k).length ≤ m.size := by
  have hSub : chains k ⊆ List.range m.size := by
    intro o ho
    have hInside := h.inside k hk o ho
    exact List.mem_range.mpr (by omega)
  have hLength := ((h.nodup k hk).subperm hSub).length_le
  rwa [List.length_range] at hLength

theorem searchBuckets (h : m.Threaded chains) (hSize : 128 ≤ m.size) (size : Nat) (ks : List Nat)
    (hks : ∀ k ∈ ks, k < 32) :
    m.searchBuckets size ks = .ok ((ks.flatMap chains).find? fun o => size ≤ (m.tag o).size) := by
  induction ks with
  | nil => rfl
  | cons k ks ih =>
    have hk := hks k List.mem_cons_self
    have hChain := searchChain_thread (h.thread k hk) size
      (fun o ho => by have := h.inside k hk o ho; omega) (h.length_le hk)
    rw [Memory.searchBuckets, head_eq_ok (by omega), ok_bind, Bucket.slot, hChain, ok_bind,
      List.flatMap_cons, List.find?_append]
    cases (chains k).find? fun o => size ≤ (m.tag o).size with
    | some o => rfl
    | none => exact ih fun l hl => hks l (List.mem_cons_of_mem k hl)

end Threaded

namespace Shows

variable {s : Shape}

theorem find?_candidates (h : m.Shows s T) (size : Nat) {l : List Nat}
    (hListed : ∀ o ∈ l, ∃ b ∈ s.blocks, b.offset = o) :
    (l.find? fun o => size ≤ (m.tag o).size) =
      ((l.filterMap s.blockAt).find? (size ≤ ·.size)).map Block.offset := by
  induction l with
  | nil => rfl
  | cons o l ih =>
    obtain ⟨b, hb, rfl⟩ := hListed o List.mem_cons_self
    rw [List.filterMap_cons_some (h.blockAt hb), List.find?_cons, List.find?_cons, h.size_tag hb]
    by_cases hFits : size ≤ b.size
    · rw [decide_eq_true hFits]
      rfl
    · rw [decide_eq_false hFits]
      exact ih fun p hp => hListed p (List.mem_cons_of_mem b.offset hp)

/-- The search comes to an end without a fault, and its answer is that of the shape. -/
theorem findFit (h : m.Shows s T) (size : Nat) :
    m.findFit size = .ok ((s.fit size).map Block.offset) := by
  have hLe := h.le_size
  unfold Memory.findFit Shape.fit
  cases Bucket.ofSize? size with
  | none => rfl
  | some first =>
    dsimp only [Layout.bucketCount]
    rw [h.threaded.searchBuckets (by omega) size _
      fun k hk => by rw [List.mem_range'_1] at hk; omega]
    refine congrArg Except.ok (h.find?_candidates size fun o ho => ?_)
    obtain ⟨k, _, hk⟩ := List.mem_flatMap.mp ho
    obtain ⟨b, hb, hOffset, _⟩ := h.listed.node k o hk
    exact ⟨b, hb, hOffset⟩

theorem of_fit {b : Block} {size : Nat} (h : m.Shows s T) (hFit : s.fit size = some b) :
    b ∈ s.blocks ∧ b.allocated = false ∧ size ≤ b.size := by
  unfold Shape.fit at hFit
  split at hFit
  · obtain ⟨o, ho, hAt⟩ := List.mem_filterMap.mp (List.mem_of_find?_eq_some hFit)
    obtain ⟨k, _, hk⟩ := List.mem_flatMap.mp ho
    obtain ⟨c, hc, rfl, hFree, _⟩ := h.listed.node k o hk
    rw [h.blockAt hc] at hAt
    cases hAt
    have hFits := List.find?_some hFit
    rw [decide_eq_true_eq] at hFits
    exact ⟨hc, hFree, hFits⟩
  · cases hFit

variable {b c : Block} {size j k : Nat}

theorem mem_candidates (h : m.Shows s) {buckets : List Nat} :
    c ∈ s.candidates buckets ↔ c ∈ s.blocks ∧ ∃ j ∈ buckets, c.offset ∈ s.chains j := by
  unfold Shape.candidates
  rw [List.mem_filterMap]
  constructor
  · rintro ⟨o, ho, hAt⟩
    have hc := List.mem_of_find?_eq_some hAt
    have hOffset := List.find?_some hAt
    rw [decide_eq_true_eq] at hOffset
    rw [hOffset]
    exact ⟨hc, List.mem_flatMap.mp ho⟩
  · rintro ⟨hc, hIn⟩
    exact ⟨c.offset, List.mem_flatMap.mpr hIn, h.blockAt hc⟩

/-- The blocks in the buckets before that of the block which the search finds are too small. -/
theorem lt_of_fit (h : m.Shows s) (hFit : s.fit size = some b)
    (hk : b.offset ∈ s.chains k) (hj : j < k) (hc : c ∈ s.blocks) (hIn : c.offset ∈ s.chains j) :
    c.size < size := by
  obtain ⟨hb, _, hFits⟩ := h.of_fit hFit
  have hBucket := (h.mem_chain hb hk).2.2
  obtain ⟨first, hFirst, hStart⟩ := Bucket.ofSize?_mono hFits hBucket
  rcases Nat.lt_or_ge j first with hBefore | hAfter
  · have hSmall := (Bucket.ofSize?_eq_some_iff.mp hStart).2.2 j hBefore
    have hWide := (Bucket.ofSize?_eq_some_iff.mp (h.mem_chain hc hIn).2.2).2.1
    omega
  rw [Shape.fit_eq hStart hFirst (Bucket.ofSize?_eq_some_iff.mp hBucket).1] at hFit
  cases hFound : (s.candidates (List.range' first (k - first))).find? (size ≤ ·.size) with
  | none =>
    have hSmall := List.find?_eq_none.mp hFound c
      (h.mem_candidates.mpr ⟨hc, j, List.mem_range'_1.mpr (by omega), hIn⟩)
    rwa [decide_eq_true_eq, Nat.not_le] at hSmall
  | some d =>
    -- A block is in one bucket only.
    rw [hFound, Option.some_or] at hFit
    cases hFit
    obtain ⟨_, i, hi, hIn'⟩ := h.mem_candidates.mp (List.mem_of_find?_eq_some hFound)
    have hRange := List.mem_range'_1.mp hi
    have hSame := (h.mem_chain hb hIn').2.2
    rw [hBucket] at hSame
    cases hSame
    omega

/-- The search finds the first block of a bucket, if it is large enough and those in the buckets
before are not. -/
theorem fit_of_first (h : m.Shows s) (hb : b ∈ s.blocks) {l : List Nat}
    (hHead : s.chains k = b.offset :: l) (hFits : size ≤ b.size)
    (hLess : ∀ j < k, ∀ c ∈ s.blocks, c.offset ∈ s.chains j → c.size < size) :
    s.fit size = some b := by
  have hBucket := (h.mem_chain hb (hHead ▸ List.mem_cons_self)).2.2
  have hk := (Bucket.ofSize?_eq_some_iff.mp hBucket).1
  obtain ⟨first, hFirst, hStart⟩ := Bucket.ofSize?_mono hFits hBucket
  have hNone : (s.candidates (List.range' first (k - first))).find? (size ≤ ·.size) = none := by
    refine List.find?_eq_none.mpr fun c hc => ?_
    obtain ⟨hMem, j, hj, hIn⟩ := h.mem_candidates.mp hc
    have hRange := List.mem_range'_1.mp hj
    rw [decide_eq_true_eq, Nat.not_le]
    exact hLess j (by omega) c hMem hIn
  have hFront : s.candidates (List.range' k (32 - k)) =
      b :: (l ++ (List.range' (k + 1) (31 - k)).flatMap s.chains).filterMap s.blockAt := by
    rw [show 32 - k = 31 - k + 1 by omega, List.range'_succ, Shape.candidates, List.flatMap_cons,
      hHead, List.cons_append, List.filterMap_cons_some (h.blockAt hb)]
  rw [Shape.fit_eq hStart hFirst hk, hNone, Option.none_or, hFront, List.find?_cons,
    decide_eq_true hFits]

end Shows

end Memory

end TaggedHeap
