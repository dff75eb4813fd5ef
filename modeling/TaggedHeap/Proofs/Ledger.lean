import Mathlib.Algebra.BigOperators.Group.Finset.Basic
import Mathlib.Algebra.Order.BigOperators.Group.Finset
import Mathlib.Order.Interval.Finset.Nat
import TaggedHeap.Proofs.Operations
import TaggedHeap.Trace.Replay

/-! # The ledger of a replay

A replay keeps a table of its payloads. Each is filled as its id says and lies in a block of its
own, apart from the blocks that others have; so the sizes in the table add up to no more than the
arena has room for.
-/

namespace TaggedHeap.Trace

section Table

variable {live live' : Std.TreeMap Nat Live} {id j numIds : Nat} {l : Live}

theorem getElem?_insert : (live.insert id l)[j]? = if id = j then some l else live[j]? := by
  rw [Std.TreeMap.getElem?_insert]
  simp only [compare_eq_iff_eq]

theorem getElem?_erase : (live.erase id)[j]? = if id = j then none else live[j]? := by
  rw [Std.TreeMap.getElem?_erase]
  simp only [compare_eq_iff_eq]

theorem of_getElem?_erase (h : (live.erase id)[j]? = some l) : id ≠ j ∧ live[j]? = some l := by
  rw [getElem?_erase] at h
  split at h
  · cases h
  · rename_i hNe
    exact ⟨hNe, h⟩

/-- What the payload of an id adds to the sizes in the table. -/
def share (live : Std.TreeMap Nat Live) (id : Nat) : Nat := (live[id]?.map Live.size).getD 0

theorem share_of_some (h : live[id]? = some l) : share live id = l.size := by
  rw [share, h]
  rfl

theorem share_insert_self : share (live.insert id l) id = l.size :=
  share_of_some (getElem?_insert.trans (if_pos rfl))

theorem share_insert_of_ne (h : id ≠ j) : share (live.insert id l) j = share live j := by
  rw [share, share, getElem?_insert, if_neg h]

theorem share_erase_self : share (live.erase id) id = 0 := by
  rw [share, getElem?_erase, if_pos rfl]
  rfl

theorem share_erase_of_ne (h : id ≠ j) : share (live.erase id) j = share live j := by
  rw [share, share, getElem?_erase, if_neg h]

/-- The sizes in the table together. -/
def total (live : Std.TreeMap Nat Live) (numIds : Nat) : Nat :=
  ∑ id ∈ Finset.range numIds, share live id

/-- A sum in which one term has changed. -/
theorem sum_change {f g : Nat → Nat} (hId : id < numIds) (hSame : ∀ j, id ≠ j → g j = f j) :
    ∑ j ∈ Finset.range numIds, g j + f id = ∑ j ∈ Finset.range numIds, f j + g id := by
  have hMem : id ∈ Finset.range numIds := Finset.mem_range.mpr hId
  have hRest : ∑ j ∈ (Finset.range numIds).erase id, g j =
      ∑ j ∈ (Finset.range numIds).erase id, f j :=
    Finset.sum_congr rfl fun j hj => hSame j (Finset.ne_of_mem_erase hj).symm
  have hNew := Finset.sum_erase_add _ g hMem
  have hOld := Finset.sum_erase_add _ f hMem
  rw [hRest] at hNew
  omega

/-- A change of one payload changes the total by the new size and the old one. -/
theorem total_change (hId : id < numIds) (hSame : ∀ j, id ≠ j → share live' j = share live j) :
    total live' numIds + share live id = total live numIds + share live' id :=
  sum_change hId hSame

theorem total_insert (hId : id < numIds) :
    total (live.insert id l) numIds + share live id = total live numIds + l.size := by
  rw [total_change hId fun j hNe => share_insert_of_ne hNe, share_insert_self]

theorem total_erase (hId : id < numIds) :
    total (live.erase id) numIds + share live id = total live numIds := by
  rw [total_change hId fun j hNe => share_erase_of_ne hNe, share_erase_self, Nat.add_zero]

/-- The bytes of the payload of an id. -/
def span (live : Std.TreeMap Nat Live) (id : Nat) : Finset Nat :=
  match live[id]? with
  | some l => Finset.Ico l.pointer (l.pointer + l.size)
  | none => ∅

theorem card_span : (span live id).card = share live id := by
  unfold span share
  cases live[id]? with
  | some l => exact (Nat.card_Ico _ _).trans (Nat.add_sub_cancel_left _ _)
  | none => rfl

theorem mem_span {i : Nat} :
    i ∈ span live id ↔ ∃ l, live[id]? = some l ∧ l.pointer ≤ i ∧ i < l.pointer + l.size := by
  unfold span
  cases live[id]? with
  | some l => simp only [Finset.mem_Ico, Option.some.injEq, exists_eq_left']
  | none => simp only [Finset.notMem_empty, reduceCtorEq, false_and, exists_false]

end Table

/-- The payload lies in the block and is filled as the id says. -/
structure Live.Fills (l : Live) (id : Nat) (m : Memory) (b : Block) : Prop where
  allocated : b.allocated = true
  pointer : l.pointer = b.offset + 4
  room : l.size + 8 ≤ b.size
  filled : ∀ j < l.size, m.byte (l.pointer + j) = fillByte id

theorem Live.Fills.keeps {l : Live} {id : Nat} {m n : Memory} {b : Block} (h : l.Fills id m b)
    (hKeeps : m.Keeps n b) : l.Fills id n b := by
  have hPointer := h.pointer
  have hRoom := h.room
  refine ⟨h.allocated, hPointer, hRoom, fun j hj => ?_⟩
  rw [hKeeps _ (by omega) (by omega), h.filled j hj]

/-- The payloads in the table have blocks of their own, and the blocks of others are as they were
in an earlier memory. -/
structure Ledger (old : Memory) (others : List Block) (live : Std.TreeMap Nat Live) (m : Memory)
    (t : Shape) : Prop where
  kept : ∀ b ∈ others, b ∈ t.blocks ∧ b.allocated = true ∧ old.Keeps m b
  held : ∀ (id : Nat) (l : Live), live[id]? = some l → ∃ b ∈ t.blocks, b ∉ others ∧ l.Fills id m b
  apart : ∀ (id id' : Nat) (l l' : Live), live[id]? = some l → live[id']? = some l' →
    l.pointer = l'.pointer → id = id'

namespace Ledger

variable {old m n : Memory} {others : List Block} {live live' : Std.TreeMap Nat Live} {t u : Shape}
  {b c : Block} {id size : Nat} {l : Live}

/-- Whatever keeps the blocks of others and those of a part of the table keeps the ledger. -/
theorem retain (h : Ledger old others live m t)
    (hSub : ∀ (id : Nat) (l : Live), live'[id]? = some l → live[id]? = some l)
    (hKeeps : ∀ b ∈ t.blocks, b.allocated = true →
      (b ∈ others ∨ ∃ (id : Nat) (l : Live), live'[id]? = some l ∧ l.pointer = b.offset + 4) →
        b ∈ u.blocks ∧ m.Keeps n b) : Ledger old others live' n u where
  kept b hb := by
    obtain ⟨hIn, hAllocated, hOld⟩ := h.kept b hb
    obtain ⟨hIn', hSame⟩ := hKeeps b hIn hAllocated (Or.inl hb)
    exact ⟨hIn', hAllocated, hOld.trans hSame⟩
  held id l hl := by
    obtain ⟨b, hb, hNot, hFills⟩ := h.held id l (hSub id l hl)
    obtain ⟨hb', hSame⟩ := hKeeps b hb hFills.allocated (Or.inr ⟨id, l, hl, hFills.pointer⟩)
    exact ⟨b, hb', hNot, hFills.keeps hSame⟩
  apart id id' l l' hl hl' := h.apart id id' l l' (hSub id l hl) (hSub id' l' hl')

theorem forget (h : Ledger old others live m t) (id : Nat) :
    Ledger old others (live.erase id) m t :=
  h.retain (fun _ _ hl => (of_getElem?_erase hl).2) fun _ hb _ _ => ⟨hb, fun _ _ _ => rfl⟩

theorem gain (h : Ledger old others live m t) (hGains : m.Gains t c n u) :
    Ledger old others live n u :=
  h.retain (fun _ _ hl => hl) fun b hb hAllocated _ =>
    ⟨(hGains.mem_iff b hAllocated).mpr (Or.inr hb), hGains.keeps b hb hAllocated⟩

/-- Giving up a payload concerns its own block alone. -/
theorem yield (h : Ledger old others live m t) (hl : live[id]? = some l) (hb : b ∉ others)
    (hPointer : l.pointer = b.offset + 4)
    (hKeeps : ∀ d ∈ t.blocks, d.allocated = true → d ≠ b → d ∈ u.blocks ∧ m.Keeps n d) :
    Ledger old others (live.erase id) n u := by
  refine h.retain (fun _ _ hl' => (of_getElem?_erase hl').2) fun d hd hAllocated hUsed => ?_
  refine hKeeps d hd hAllocated ?_
  rintro rfl
  rcases hUsed with hOther | ⟨id', l', hl', hPointer'⟩
  · exact hb hOther
  · obtain ⟨hNe, hLive⟩ := of_getElem?_erase hl'
    exact hNe (h.apart id id' l l' hl hLive (hPointer.trans hPointer'.symm))

theorem lose (h : Ledger old others live m t) (hl : live[id]? = some l) (hb : b ∉ others)
    (hPointer : l.pointer = b.offset + 4) (hLoses : m.Loses t b n u) :
    Ledger old others (live.erase id) n u :=
  h.yield hl hb hPointer fun d hd hAllocated hNe =>
    ⟨(hLoses.mem_iff d hAllocated).mpr ⟨hNe, hd⟩, hLoses.keeps d hd hAllocated hNe⟩

theorem move {copied : Nat} (h : Ledger old others live m t) (hl : live[id]? = some l)
    (hb : b ∉ others) (hPointer : l.pointer = b.offset + 4) (hMoves : m.Moves t b c copied n u) :
    Ledger old others (live.erase id) n u :=
  h.yield hl hb hPointer fun d hd hAllocated hNe =>
    ⟨(hMoves.mem_iff d hAllocated).mpr (Or.inr ⟨hNe, hd⟩), hMoves.keeps d hd hAllocated hNe⟩

/-- A block that begins where none did belongs to nobody yet. -/
theorem unclaimed (h : Ledger old others live m t)
    (hFresh : ∀ d ∈ t.blocks, d.allocated = true → d.offset ≠ c.offset) :
    c ∉ others ∧ ∀ (id : Nat) (l : Live), live[id]? = some l → l.pointer ≠ c.offset + 4 := by
  constructor
  · intro hc
    obtain ⟨hIn, hAllocated, _⟩ := h.kept c hc
    exact hFresh c hIn hAllocated rfl
  · intro id l hl hPointer
    obtain ⟨b, hb, _, hFills⟩ := h.held id l hl
    have hOffset := hFills.pointer
    exact hFresh b hb hFills.allocated (by omega)

/-- A payload that has been filled enters the table. -/
theorem insert (h : Ledger old others (live.erase id) n u) (hc : c ∈ u.blocks) (hNot : c ∉ others)
    (hFresh : ∀ (id' : Nat) (l : Live), live[id']? = some l → l.pointer ≠ c.offset + 4)
    (hFills : Live.Fills ⟨c.offset + 4, size⟩ id n c) :
    Ledger old others (live.insert id ⟨c.offset + 4, size⟩) n u := by
  have hCases : ∀ (id' : Nat) (l : Live), (live.insert id ⟨c.offset + 4, size⟩)[id']? = some l →
      id = id' ∧ l = ⟨c.offset + 4, size⟩ ∨
        (live.erase id)[id']? = some l ∧ l.pointer ≠ c.offset + 4 := by
    intro id' l hl
    rw [getElem?_insert] at hl
    rw [getElem?_erase]
    split at hl
    · rename_i hEq
      exact Or.inl ⟨hEq, (Option.some.inj hl).symm⟩
    · rename_i hNe
      rw [if_neg hNe]
      exact Or.inr ⟨hl, hFresh id' l hl⟩
  refine ⟨h.kept, ?_, ?_⟩
  · intro id' l hl
    rcases hCases id' l hl with ⟨rfl, rfl⟩ | ⟨hOld, _⟩
    · exact ⟨c, hc, hNot, hFills⟩
    · exact h.held id' l hOld
  · intro id₁ id₂ l₁ l₂ hl₁ hl₂ hEq
    rcases hCases id₁ l₁ hl₁ with ⟨rfl, rfl⟩ | ⟨hOld₁, hNe₁⟩
    · rcases hCases id₂ l₂ hl₂ with ⟨rfl, rfl⟩ | ⟨_, hNe₂⟩
      · rfl
      · exact absurd hEq.symm hNe₂
    · rcases hCases id₂ l₂ hl₂ with ⟨rfl, rfl⟩ | ⟨hOld₂, _⟩
      · exact absurd hEq hNe₁
      · exact h.apart id₁ id₂ l₁ l₂ hOld₁ hOld₂ hEq

/-- The payloads in the table do not overlap, so there is room for all of them. -/
theorem total_le (h : Ledger old others live m t) (hShows : m.Shows t) (numIds : Nat) :
    total live numIds + 144 ≤ m.size := by
  have hLe := hShows.le_size
  have hApart : ((Finset.range numIds : Finset Nat) : Set Nat).PairwiseDisjoint (span live) := by
    intro id _ id' _ hNe
    refine Finset.disjoint_left.mpr fun i hi hi' => ?_
    obtain ⟨l, hl, hLow, hHigh⟩ := mem_span.mp hi
    obtain ⟨l', hl', hLow', hHigh'⟩ := mem_span.mp hi'
    obtain ⟨b, hb, _, hFills⟩ := h.held id l hl
    obtain ⟨b', hb', _, hFills'⟩ := h.held id' l' hl'
    have hPointer := hFills.pointer
    have hPointer' := hFills'.pointer
    have hRoom := hFills.room
    have hRoom' := hFills'.room
    rcases hShows.tiling.eq_or_apart hb hb' with rfl | hOff
    · exact hNe (h.apart id id' l l' hl hl' (by omega))
    · omega
  have hInside : (Finset.range numIds).biUnion (span live) ⊆ Finset.Ico 144 m.size := by
    intro i hi
    obtain ⟨id, _, hi⟩ := Finset.mem_biUnion.mp hi
    obtain ⟨l, hl, hLow, hHigh⟩ := mem_span.mp hi
    obtain ⟨b, hb, _, hFills⟩ := h.held id l hl
    have hPointer := hFills.pointer
    have hRoom := hFills.room
    have hBounds := hShows.bounds hb
    exact Finset.mem_Ico.mpr ⟨by omega, by omega⟩
  have hCard := Finset.card_le_card hInside
  rw [Finset.card_biUnion hApart, Nat.card_Ico, Finset.sum_congr rfl fun id _ => card_span] at hCard
  change total live numIds ≤ m.size - 144 at hCard
  omega

end Ledger

end TaggedHeap.Trace
