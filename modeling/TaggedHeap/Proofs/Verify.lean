import TaggedHeap.Heap.Check
import TaggedHeap.Proofs.Settled

/-! # What verification finds

Verification runs on any bytes. It finds no broken rule exactly where the headers lead from the
first block to the epilogue and the chains share out the free blocks on the way. Both walks collect
or use up a set; what they find is therefore said together with the set that they leave.
-/

namespace TaggedHeap

namespace Audit

variable {α β : Type}

/-- The check runs into no fault, and the values that it may find are those of `found`. -/
def Finds (run : Audit α) (found : α → Prop) : Prop :=
  ∃ r : Except Violation α, run = Except.ok r ∧ ∀ a, r = .ok a ↔ found a

theorem Finds.congr {run : Audit α} {found found' : α → Prop} (h : run.Finds found)
    (hIff : ∀ a, found a ↔ found' a) : run.Finds found' := by
  obtain ⟨r, hRun, hFound⟩ := h
  exact ⟨r, hRun, fun a => (hFound a).trans (hIff a)⟩

theorem finds_pure (a : α) : (pure a : Audit α).Finds fun b => b = a :=
  ⟨.ok a, rfl, fun _ => ⟨fun h => (Except.ok.inj h).symm, fun h => congrArg Except.ok h.symm⟩⟩

theorem finds_throw (v : Violation) {found : α → Prop} (h : ∀ a, ¬ found a) :
    (throw v : Audit α).Finds found :=
  ⟨.error v, rfl, fun a => ⟨nofun, fun ha => absurd ha (h a)⟩⟩

theorem finds_throw_bind (v : Violation) {next : β → Audit α} {found : α → Prop}
    (h : ∀ a, ¬ found a) : ((throw v : Audit β) >>= next).Finds found := finds_throw v h

theorem Finds.bind {run : Audit α} {next : α → Audit β} {found : α → Prop} {p : α → β → Prop}
    (h : run.Finds found) (hNext : ∀ a, found a → (next a).Finds (p a)) :
    (run >>= next).Finds fun b => ∃ a, found a ∧ p a b := by
  obtain ⟨r, rfl, hFound⟩ := h
  cases r with
  | error v =>
    refine ⟨.error v, rfl, fun _ => ⟨nofun, ?_⟩⟩
    rintro ⟨a, ha, _⟩
    cases (hFound a).mpr ha
  | ok a =>
    obtain ⟨r, hRun, hFound'⟩ := hNext a ((hFound a).mp rfl)
    refine ⟨r, hRun, fun b => (hFound' b).trans ⟨fun hb => ⟨a, (hFound a).mp rfl, hb⟩, ?_⟩⟩
    rintro ⟨c, hc, hb⟩
    cases (hFound c).mpr hc
    exact hb

theorem lift_ok_bind (a : α) (next : α → Audit β) :
    ((liftM (Except.ok a : Checked α) : Audit α) >>= next) = next a := rfl

end Audit

namespace Memory

variable {m : Memory} {epilogue : Nat}

/-- The header of a block describes it, and so does the footer if the block is free. -/
structure Fits (m : Memory) (b : Block) : Prop where
  large : 32 ≤ b.size
  size : b.size = (m.tag b.offset).size
  allocated : b.allocated = (m.tag b.offset).isAllocated
  footer : b.allocated = false → m.word (b.offset + b.size - 4) = m.word b.offset

/-- What the walk accepts from an offset on, if it comes from a free block or not. -/
structure Walked (m : Memory) (epilogue offset : Nat) (freeBefore : Option Nat) (bs : List Block) :
    Prop where
  tiling : Tiling offset bs epilogue
  fits : ∀ b ∈ bs, m.Fits b
  fenced : Fenced bs
  first : ∀ b ∈ bs.head?, b.allocated = true ∨ freeBefore = none

def freeOffsets (bs : List Block) : List Nat :=
  (bs.filter fun b => !b.allocated).map Block.offset

theorem freeOffsets_cons (b : Block) (bs : List Block) :
    freeOffsets (b :: bs) = if b.allocated then freeOffsets bs else b.offset :: freeOffsets bs := by
  cases hb : b.allocated with
  | true => rw [freeOffsets, List.filter_cons_of_neg (by rw [hb]; decide), if_pos rfl, freeOffsets]
  | false =>
    rw [freeOffsets, List.filter_cons_of_pos (by rw [hb]; decide), if_neg Bool.false_ne_true,
      freeOffsets, List.map_cons]

def blockAt (m : Memory) (offset : Nat) : Block :=
  ⟨offset, (m.tag offset).size, (m.tag offset).isAllocated⟩

theorem walked_iff {offset : Nat} {freeBefore : Option Nat} {bs : List Block}
    (h : offset < epilogue) : m.Walked epilogue offset freeBefore bs ↔
      ∃ rest, bs = m.blockAt offset :: rest ∧ m.Fits (m.blockAt offset) ∧
        ((m.tag offset).isAllocated = true ∨ freeBefore = none) ∧
        m.Walked epilogue (offset + (m.tag offset).size)
          (if (m.tag offset).isAllocated then none else some offset) rest := by
  constructor
  · rintro ⟨hTiling, hFits, hFenced, hFirst⟩
    cases bs with
    | nil =>
      cases hTiling
      exact absurd h (Nat.lt_irrefl _)
    | cons b rest =>
      obtain ⟨rfl, _, _, hRest⟩ := hTiling
      have hb := hFits b List.mem_cons_self
      have hEq : b = m.blockAt b.offset := by
        obtain ⟨o, z, a⟩ := b
        rw [blockAt, ← hb.size, ← hb.allocated]
      obtain ⟨hNext, hFenced⟩ := List.isChain_cons.mp hFenced
      refine ⟨rest, by rw [← hEq], hEq ▸ hb, ?_, ?_, ?_, hFenced, ?_⟩
      · rw [← hb.allocated]
        exact hFirst b rfl
      · rwa [← hb.size]
      · exact fun c hc => hFits c (List.mem_cons_of_mem b hc)
      · intro c hc
        rw [← hb.allocated]
        rcases hNext c hc with hA | hA
        · exact Or.inr (if_pos hA)
        · exact Or.inl hA
  · rintro ⟨rest, rfl, hb, hFirst, hTiling, hFits, hFenced, hNext⟩
    refine ⟨⟨rfl, ?_, Tag.size_mod_eight _, hTiling⟩, ?_, List.isChain_cons.mpr ⟨?_, hFenced⟩, ?_⟩
    · exact le_trans (by decide) hb.large
    · intro c hc
      rcases List.mem_cons.mp hc with rfl | hc
      · exact hb
      · exact hFits c hc
    · intro c hc
      cases hA : (m.tag offset).isAllocated with
      | true => exact Or.inl hA
      | false =>
        refine Or.inr ((hNext c hc).resolve_right ?_)
        rw [hA, if_neg Bool.false_ne_true]
        exact Option.some_ne_none offset
    · intro c hc
      rw [List.head?_cons, Option.mem_some_iff] at hc
      rw [← hc]
      exact hFirst

theorem walked_nil_iff {freeBefore : Option Nat} {bs : List Block} :
    m.Walked epilogue epilogue freeBefore bs ↔ bs = [] := by
  constructor
  · rintro ⟨hTiling, hFits, _, _⟩
    cases bs with
    | nil => rfl
    | cons b rest =>
      have hBounds := hTiling.bounds List.mem_cons_self
      have hLarge := (hFits b List.mem_cons_self).large
      omega
  · rintro rfl
    exact ⟨Tiling.nil epilogue, fun _ hb => absurd hb List.not_mem_nil, List.IsChain.nil,
      fun _ hb => absurd hb (Option.not_mem_none _)⟩

/-- What the walk finds from a block on, by what it finds from the next one on. -/
theorem exists_walked_iff {offset : Nat} {freeBefore : Option Nat} {free found : Std.TreeSet Nat}
    (h : offset < epilogue) :
    (∃ bs, m.Walked epilogue offset freeBefore bs ∧ m.word epilogue = 1 ∧
      found = (freeOffsets bs).foldl .insert free) ↔
    m.Fits (m.blockAt offset) ∧ ((m.tag offset).isAllocated = true ∨ freeBefore = none) ∧
      ∃ rest, m.Walked epilogue (offset + (m.tag offset).size)
        (if (m.tag offset).isAllocated then none else some offset) rest ∧ m.word epilogue = 1 ∧
        found = (freeOffsets rest).foldl .insert
          (if (m.tag offset).isAllocated then free else free.insert offset) := by
  have hFree : ∀ rest, (freeOffsets (m.blockAt offset :: rest)).foldl .insert free =
      (freeOffsets rest).foldl .insert
        (if (m.tag offset).isAllocated then free else free.insert offset) := by
    intro rest
    rw [freeOffsets_cons]
    cases hA : (m.tag offset).isAllocated with
    | true => rw [if_pos (by rwa [blockAt]), if_pos rfl]
    | false =>
      rw [if_neg (by rw [blockAt, hA]; exact Bool.false_ne_true), if_neg Bool.false_ne_true]
      rfl
  constructor
  · rintro ⟨bs, hWalked, hEpilogue, rfl⟩
    obtain ⟨rest, rfl, hFits, hFirst, hRest⟩ := (walked_iff h).mp hWalked
    exact ⟨hFits, hFirst, rest, hRest, hEpilogue, hFree rest⟩
  · rintro ⟨hFits, hFirst, rest, hRest, hEpilogue, rfl⟩
    exact ⟨_, (walked_iff h).mpr ⟨rest, rfl, hFits, hFirst, hRest⟩, hEpilogue, (hFree rest).symm⟩

theorem auditBlocks_finds {offset : Nat} (hEnd : epilogue + 4 = m.size) (hLe : offset ≤ epilogue)
    (freeBefore : Option Nat) (free : Std.TreeSet Nat) :
    (m.auditBlocks epilogue offset freeBefore free).Finds fun found =>
      ∃ bs, m.Walked epilogue offset freeBefore bs ∧ m.word epilogue = 1 ∧
        found = (freeOffsets bs).foldl .insert free := by
  induction hn : epilogue - offset using Nat.strongRecOn generalizing offset freeBefore free with
  | ind n ih =>
  subst hn
  rw [auditBlocks]
  rcases Nat.lt_or_eq_of_le hLe with hLt | rfl
  · refine Audit.Finds.congr ?_ fun found => (exists_walked_iff hLt).symm
    rw [dif_pos hLt, tagAt_eq_ok (by omega), Audit.lift_ok_bind]
    dsimp only [Layout.minBlock]
    split
    · rename_i hSmall
      exact Audit.finds_throw _ fun found hFound =>
        absurd hFound.1.large (Nat.not_le.mpr hSmall)
    rename_i hLarge
    split
    · rename_i hLong
      refine Audit.finds_throw _ ?_
      rintro found ⟨_, _, rest, hRest, _⟩
      exact absurd hRest.tiling.le (Nat.not_le.mpr hLong)
    rename_i hShort
    have hNext := ih (epilogue - (offset + (m.tag offset).size)) (by omega)
      (Nat.not_lt.mp hShort) (if (m.tag offset).isAllocated then none else some offset)
      (if (m.tag offset).isAllocated then free else free.insert offset) rfl
    cases hA : (m.tag offset).isAllocated with
    | true =>
      rw [hA, if_pos rfl, if_pos rfl] at hNext
      rw [if_pos rfl]
      refine hNext.congr fun found => ⟨fun hFound => ⟨?_, Or.inl rfl, hFound⟩, fun hFound => hFound.2.2⟩
      exact ⟨Nat.not_lt.mp hLarge, rfl, rfl, fun hB => Bool.noConfusion (hA.symm.trans hB)⟩
    | false =>
      rw [hA, if_neg Bool.false_ne_true, if_neg Bool.false_ne_true] at hNext
      rw [if_neg Bool.false_ne_true, tagAt_eq_ok (by omega), Audit.lift_ok_bind]
      split
      · rename_i hFooter
        exact Audit.finds_throw_bind _ fun found hFound =>
          hFooter (congrArg Tag.mk (hFound.1.footer hA))
      · rename_i hFooter
        have hFits : m.Fits (m.blockAt offset) := by
          refine ⟨Nat.not_lt.mp hLarge, rfl, rfl, fun _ => ?_⟩
          exact congrArg Tag.word (Decidable.not_not.mp hFooter)
        cases freeBefore with
        | some first =>
          refine Audit.finds_throw_bind _ fun found hFound => ?_
          rcases hFound.2.1 with hB | hB
          · cases hB
          · cases hB
        | none =>
          exact hNext.congr fun found => ⟨fun hFound => ⟨hFits, Or.inr rfl, hFound⟩,
            fun hFound => hFound.2.2⟩
  · rw [dif_neg (Nat.lt_irrefl offset), tagAt_eq_ok (by omega), Audit.lift_ok_bind]
    dsimp only
    split
    · rename_i hEpilogue
      refine Audit.finds_throw_bind _ ?_
      rintro found ⟨_, _, hWord, _⟩
      exact hEpilogue (congrArg Tag.mk hWord)
    · rename_i hEpilogue
      refine (Audit.finds_pure free).congr fun found => ⟨?_, ?_⟩
      · rintro rfl
        exact ⟨[], walked_nil_iff.mpr rfl, congrArg Tag.word (Decidable.not_not.mp hEpilogue), rfl⟩
      · rintro ⟨bs, hWalked, _, hFound⟩
        rwa [walked_nil_iff.mp hWalked] at hFound

/-- The walk over the blocks leads to free blocks that are inside the memory. -/
structure Candidate (m : Memory) (epilogue o : Nat) : Prop where
  low : 140 ≤ o
  high : o + 32 ≤ epilogue
  aligned : (o + 4) % 8 = 0
  free : (m.tag o).isAllocated = false

/-- What the walk over a chain accepts: a thread of pending blocks of the bucket. -/
structure Used (m : Memory) (bucket entry back : Nat) (pending : Std.TreeSet Nat) (l : List Nat) :
    Prop where
  thread : m.Thread entry back l
  nodup : l.Nodup
  pending : ∀ o ∈ l, o ∈ pending
  bucket : ∀ o ∈ l, Bucket.ofSize? (m.tag o).size = some bucket

theorem mem_erase {pending : Std.TreeSet Nat} {a o : Nat} :
    o ∈ pending.erase a ↔ o ≠ a ∧ o ∈ pending := by
  rw [Std.TreeSet.mem_erase, ne_eq, compare_eq_iff_eq, ne_comm]

theorem size_erase_lt {pending : Std.TreeSet Nat} {o : Nat} (h : o ∈ pending) :
    (pending.erase o).size < pending.size := by
  have hPos := size_pos_of_mem h
  rw [Std.TreeSet.size_erase, if_pos (Std.TreeSet.mem_iff_contains.mp h)]
  omega

theorem used_iff {bucket entry back : Nat} {pending : Std.TreeSet Nat} {l : List Nat}
    (h : m.word entry ≠ 0) : m.Used bucket entry back pending l ↔
      ∃ rest, l = m.word entry :: rest ∧ m.word entry ∈ pending ∧
        Bucket.ofSize? (m.tag (m.word entry)).size = some bucket ∧ m.word (m.word entry + 8) = back ∧
        m.Used bucket (m.word entry + 4) (m.word entry) (pending.erase (m.word entry)) rest := by
  constructor
  · rintro ⟨hThread, hNodup, hPending, hBucket⟩
    cases l with
    | nil => exact absurd hThread h
    | cons b rest =>
      obtain ⟨_, hEntry, hBack, hRest⟩ := hThread
      obtain ⟨hNew, hNodup'⟩ := List.nodup_cons.mp hNodup
      subst hEntry
      refine ⟨rest, rfl, hPending _ List.mem_cons_self, hBucket _ List.mem_cons_self, hBack, hRest,
        hNodup', ?_, fun o ho => hBucket o (List.mem_cons_of_mem _ ho)⟩
      intro o ho
      refine mem_erase.mpr ⟨?_, hPending o (List.mem_cons_of_mem _ ho)⟩
      rintro rfl
      exact hNew ho
  · rintro ⟨rest, rfl, hIn, hBucket, hBack, hThread, hNodup, hPending, hBucket'⟩
    refine ⟨⟨h, rfl, hBack, hThread⟩, List.nodup_cons.mpr ⟨?_, hNodup⟩, ?_, ?_⟩
    · exact fun hMem => (mem_erase.mp (hPending _ hMem)).1 rfl
    · intro o ho
      rcases List.mem_cons.mp ho with rfl | ho
      · exact hIn
      · exact (mem_erase.mp (hPending o ho)).2
    · intro o ho
      rcases List.mem_cons.mp ho with rfl | ho
      · exact hBucket
      · exact hBucket' o ho

theorem used_nil_iff {bucket entry back : Nat} {pending : Std.TreeSet Nat} {l : List Nat}
    (h : m.word entry = 0) : m.Used bucket entry back pending l ↔ l = [] := by
  constructor
  · intro hUsed
    cases l with
    | nil => rfl
    | cons b l => exact absurd (hUsed.thread.2.1.symm.trans h) hUsed.thread.1
  · rintro rfl
    exact ⟨h, List.nodup_nil, fun _ ho => absurd ho List.not_mem_nil,
      fun _ ho => absurd ho List.not_mem_nil⟩

/-- What a chain finds from a block on, by what it finds after the block. -/
theorem exists_used_iff {bucket entry back : Nat} {pending found : Std.TreeSet Nat}
    (h : m.word entry ≠ 0) :
    (∃ l, m.Used bucket entry back pending l ∧ found = l.foldl .erase pending) ↔
      m.word entry ∈ pending ∧ Bucket.ofSize? (m.tag (m.word entry)).size = some bucket ∧
        m.word (m.word entry + 8) = back ∧
        ∃ rest, m.Used bucket (m.word entry + 4) (m.word entry) (pending.erase (m.word entry)) rest ∧
          found = rest.foldl .erase (pending.erase (m.word entry)) := by
  constructor
  · rintro ⟨l, hUsed, rfl⟩
    obtain ⟨rest, rfl, hIn, hBucket, hBack, hRest⟩ := (used_iff h).mp hUsed
    exact ⟨hIn, hBucket, hBack, rest, hRest, rfl⟩
  · rintro ⟨hIn, hBucket, hBack, rest, hRest, rfl⟩
    exact ⟨_, (used_iff h).mpr ⟨rest, rfl, hIn, hBucket, hBack, hRest⟩, rfl⟩

/-- The walk over a chain. It ends because each block uses up a pending one. -/
theorem auditChain_finds {pending : Std.TreeSet Nat} (bucket entry back : Nat)
    (hEnd : epilogue + 4 = m.size) (hSafe : ∀ o ∈ pending, m.Candidate epilogue o) :
    (m.auditChain epilogue bucket (blockNamed back) (blockNamed (m.word entry)) pending).Finds
      fun found => ∃ l, m.Used bucket entry back pending l ∧ found = l.foldl .erase pending := by
  induction hn : pending.size using Nat.strongRecOn generalizing entry back pending with
  | ind n ih =>
  subst hn
  rw [auditChain.eq_def]
  rcases eq_or_ne (m.word entry) 0 with hZero | hNe
  · rw [hZero, blockNamed_zero]
    dsimp only
    refine (Audit.finds_pure pending).congr fun found => ⟨?_, ?_⟩
    · rintro rfl
      exact ⟨[], (used_nil_iff hZero).mpr rfl, rfl⟩
    · rintro ⟨l, hUsed, rfl⟩
      rw [(used_nil_iff hZero).mp hUsed]
      rfl
  refine Audit.Finds.congr ?_ fun found => (exists_used_iff hNe).symm
  rw [blockNamed_of_ne hNe]
  dsimp only [Layout.firstBlock, Layout.minBlock, Layout.alignment]
  generalize hb : m.word entry = b at *
  split
  · rename_i hRange
    refine Audit.finds_throw_bind _ fun found hFound => ?_
    have hCandidate := hSafe b hFound.1
    have hLow := hCandidate.low
    have hHigh := hCandidate.high
    have hAligned := hCandidate.aligned
    omega
  rename_i hRange
  rw [tagAt_eq_ok (by omega), Audit.lift_ok_bind]
  split
  · rename_i hAllocated
    exact Audit.finds_throw_bind _ fun found hFound =>
      Bool.noConfusion (hAllocated.symm.trans (hSafe b hFound.1).free)
  split
  · rename_i hPending
    split
    · rename_i hBucket
      exact Audit.finds_throw_bind _ fun found hFound => hBucket hFound.2.1
    rename_i hBucket
    rw [previous_eq_ok (by omega), Audit.lift_ok_bind]
    split
    · rename_i hBack
      exact Audit.finds_throw_bind _ fun found hFound =>
        hBack (blockNamed_inj.mpr hFound.2.2.1)
    · rename_i hBack
      have hBack' : m.word (b + 8) = back := blockNamed_inj.mp (Decidable.not_not.mp hBack)
      have hNext := ih _ (size_erase_lt hPending) (b + 4) b
        (fun o ho => hSafe o (mem_erase.mp ho).2) rfl
      rw [blockNamed_of_ne hNe] at hNext
      rw [next_eq_ok (by omega), Audit.lift_ok_bind]
      exact hNext.congr fun found => ⟨fun hFound => ⟨hPending, Decidable.not_not.mp hBucket, hBack',
        hFound⟩, fun hFound => hFound.2.2.2⟩
  · rename_i hMissing
    exact Audit.finds_throw _ fun found hFound => hMissing hFound.1

theorem mem_foldl_insert {l : List Nat} {free : Std.TreeSet Nat} {o : Nat} :
    o ∈ l.foldl Std.TreeSet.insert free ↔ o ∈ l ∨ o ∈ free := by
  induction l generalizing free with
  | nil => simp only [List.foldl_nil, List.not_mem_nil, false_or]
  | cons a l ih =>
    rw [List.foldl_cons, ih, Std.TreeSet.mem_insert, compare_eq_iff_eq, List.mem_cons, or_left_comm,
      or_assoc, eq_comm]

theorem mem_foldl_erase {l : List Nat} {pending : Std.TreeSet Nat} {o : Nat} :
    o ∈ l.foldl Std.TreeSet.erase pending ↔ o ∉ l ∧ o ∈ pending := by
  induction l generalizing pending with
  | nil => simp only [List.foldl_nil, List.not_mem_nil, not_false_eq_true, true_and]
  | cons a l ih =>
    rw [List.foldl_cons, ih, mem_erase, List.mem_cons, not_or, and_left_comm, and_assoc]

def freeSet (bs : List Block) : Std.TreeSet Nat := (freeOffsets bs).foldl .insert ∅

theorem mem_freeSet {bs : List Block} {o : Nat} : o ∈ freeSet bs ↔ o ∈ freeOffsets bs :=
  mem_foldl_insert.trans (or_iff_left Std.TreeSet.not_mem_emptyc)

/-- What the walks over the chains of some buckets accept. -/
structure Shared (m : Memory) (buckets : List Nat) (pending : Std.TreeSet Nat) (chains : Chains) :
    Prop where
  thread : ∀ k ∈ buckets, m.Thread (4 * k) 0 (chains k)
  bucket : ∀ k ∈ buckets, ∀ o ∈ chains k, Bucket.ofSize? (m.tag o).size = some k
  nodup : (buckets.flatMap chains).Nodup
  pending : ∀ o ∈ buckets.flatMap chains, o ∈ pending

theorem shared_cons_iff {k : Nat} {ks : List Nat} {pending : Std.TreeSet Nat} {chains : Chains} :
    m.Shared (k :: ks) pending chains ↔ m.Used k (4 * k) 0 pending (chains k) ∧
      m.Shared ks ((chains k).foldl .erase pending) chains := by
  constructor
  · rintro ⟨hThread, hBucket, hNodup, hPending⟩
    rw [List.flatMap_cons] at hNodup hPending
    obtain ⟨hFirst, hRest, hApart⟩ := List.nodup_append.mp hNodup
    refine ⟨⟨hThread k List.mem_cons_self, hFirst, ?_, hBucket k List.mem_cons_self⟩, ?_, ?_, hRest, ?_⟩
    · exact fun o ho => hPending o (List.mem_append_left _ ho)
    · exact fun l hl => hThread l (List.mem_cons_of_mem k hl)
    · exact fun l hl => hBucket l (List.mem_cons_of_mem k hl)
    · intro o ho
      refine mem_foldl_erase.mpr ⟨fun hMem => hApart o hMem o ho rfl, ?_⟩
      exact hPending o (List.mem_append_right _ ho)
  · rintro ⟨hUsed, hThread, hBucket, hNodup, hPending⟩
    refine ⟨?_, ?_, ?_, ?_⟩
    · intro l hl
      rcases List.mem_cons.mp hl with rfl | hl
      · exact hUsed.thread
      · exact hThread l hl
    · intro l hl
      rcases List.mem_cons.mp hl with rfl | hl
      · exact hUsed.bucket
      · exact hBucket l hl
    · rw [List.flatMap_cons]
      refine List.nodup_append.mpr ⟨hUsed.nodup, hNodup, ?_⟩
      rintro o ho _ ho' rfl
      exact (mem_foldl_erase.mp (hPending o ho')).1 ho
    · intro o ho
      rw [List.flatMap_cons] at ho
      rcases List.mem_append.mp ho with ho | ho
      · exact hUsed.pending o ho
      · exact (mem_foldl_erase.mp (hPending o ho)).2

theorem Shared.congr {ks : List Nat} {pending : Std.TreeSet Nat} {chains chains' : Chains}
    (h : m.Shared ks pending chains) (hSame : ∀ k ∈ ks, chains' k = chains k) :
    m.Shared ks pending chains' ∧ ks.flatMap chains' = ks.flatMap chains := by
  have hEq : ks.flatMap chains' = ks.flatMap chains := List.flatMap_congr hSame
  refine ⟨⟨?_, ?_, ?_, ?_⟩, hEq⟩
  · intro k hk
    rw [hSame k hk]
    exact h.thread k hk
  · intro k hk
    rw [hSame k hk]
    exact h.bucket k hk
  · rw [hEq]
    exact h.nodup
  · rw [hEq]
    exact h.pending

theorem auditChains_finds (hEnd : epilogue + 4 = m.size) (hSize : 128 ≤ m.size) {ks : List Nat}
    {pending : Std.TreeSet Nat} (hks : ∀ k ∈ ks, k < 32) (hNodup : ks.Nodup)
    (hSafe : ∀ o ∈ pending, m.Candidate epilogue o) :
    (m.auditChains epilogue ks pending).Finds fun found =>
      ∃ chains, m.Shared ks pending chains ∧ found = (ks.flatMap chains).foldl .erase pending := by
  induction ks generalizing pending with
  | nil =>
    refine (Audit.finds_pure pending).congr fun found => ⟨?_, ?_⟩
    · rintro rfl
      exact ⟨fun _ => [], ⟨fun _ hk => absurd hk List.not_mem_nil,
        fun _ hk => absurd hk List.not_mem_nil, List.nodup_nil,
        fun _ ho => absurd ho List.not_mem_nil⟩, rfl⟩
    · rintro ⟨chains, _, rfl⟩
      rfl
  | cons k ks ih =>
    have hk := hks k List.mem_cons_self
    obtain ⟨hNew, hNodup'⟩ := List.nodup_cons.mp hNodup
    have hChain := auditChain_finds k (4 * k) 0 hEnd hSafe
    rw [auditChains, head_eq_ok (by omega), Audit.lift_ok_bind]
    refine (hChain.bind (p := fun pending' found => ∃ chains, m.Shared ks pending' chains ∧
      found = (ks.flatMap chains).foldl .erase pending') ?_).congr ?_
    · rintro _ ⟨l, _, rfl⟩
      exact ih (fun l hl => hks l (List.mem_cons_of_mem k hl)) hNodup'
        fun o ho => hSafe o (mem_foldl_erase.mp ho).2
    · intro found
      constructor
      · rintro ⟨_, ⟨l, hUsed, rfl⟩, chains, hShared, rfl⟩
        have hSame : ∀ j ∈ ks, Function.update chains k l j = chains j := by
          intro j hj
          apply Function.update_of_ne
          rintro rfl
          exact hNew hj
        obtain ⟨hShared', hEq⟩ := hShared.congr hSame
        refine ⟨Function.update chains k l, shared_cons_iff.mpr ?_, ?_⟩
        · rw [Function.update_self]
          exact ⟨hUsed, hShared'⟩
        · rw [List.flatMap_cons, Function.update_self, hEq, List.foldl_append]
      · rintro ⟨chains, hShared, rfl⟩
        obtain ⟨hUsed, hShared⟩ := shared_cons_iff.mp hShared
        refine ⟨_, ⟨chains k, hUsed, rfl⟩, chains, hShared, ?_⟩
        rw [List.flatMap_cons, List.foldl_append]

/-- What verification is there to establish: the headers lead from the first block to the epilogue,
and the chains of the buckets share out the free blocks. -/
structure Orderly (m : Memory) (s : Shape) : Prop where
  size : 144 ≤ m.size
  prologueHeader : m.word 132 = 9
  prologueFooter : m.word 136 = 9
  tiling : Tiling 140 s.blocks (m.size - 4)
  large : ∀ b ∈ s.blocks, 32 ≤ b.size
  header : ∀ b ∈ s.blocks, b.size = m.word b.offset / 8 * 8 ∧
    (b.allocated = true ↔ m.word b.offset % 2 = 1)
  epilogue : m.word (m.size - 4) = 1
  footer : ∀ b ∈ s.blocks, b.allocated = false →
    m.word (b.offset + b.size - 4) = m.word b.offset
  fenced : s.blocks.IsChain fun a b => a.allocated = true ∨ b.allocated = true
  thread : ∀ k < 32, m.Thread (4 * k) 0 (s.chains k)
  listing : ((List.range 32).flatMap s.chains).Perm
    ((s.blocks.filter fun b => !b.allocated).map Block.offset)
  bucket : ∀ k < 32, ∀ b ∈ s.blocks, b.offset ∈ s.chains k →
    b.size ≤ 1 <<< k ∧ ∀ j < k, 1 <<< j < b.size

section Orderly

variable {s : Shape} {bs : List Block} {chains : Chains}

theorem mem_freeOffsets {o : Nat} :
    o ∈ freeOffsets bs ↔ ∃ b ∈ bs, b.allocated = false ∧ b.offset = o := by
  simp only [freeOffsets, List.mem_map, List.mem_filter, Bool.not_eq_true', and_assoc]

theorem Walked.candidate {freeBefore : Option Nat} (h : m.Walked epilogue 140 freeBefore bs)
    {o : Nat} (ho : o ∈ freeSet bs) : m.Candidate epilogue o := by
  obtain ⟨b, hb, hFree, rfl⟩ := mem_freeOffsets.mp (mem_freeSet.mp ho)
  have hBounds := h.tiling.bounds hb
  have hFits := h.fits b hb
  have hLarge := hFits.large
  exact ⟨hBounds.1, by omega, by omega, hFits.allocated ▸ hFree⟩

theorem Orderly.walked (h : m.Orderly s) : m.Walked (m.size - 4) 140 none s.blocks where
  tiling := h.tiling
  fits b hb := by
    refine ⟨h.large b hb, (h.header b hb).1, ?_, h.footer b hb⟩
    rw [Bool.eq_iff_iff, (h.header b hb).2, tag, Tag.isAllocated, beq_iff_eq]
  fenced := h.fenced
  first _ _ := Or.inr rfl

theorem Orderly.shared (h : m.Orderly s) :
    m.Shared (List.range 32) (freeSet s.blocks) s.chains where
  thread k hk := h.thread k (List.mem_range.mp hk)
  nodup := by
    refine h.listing.nodup_iff.mpr (h.tiling.nodup_offset.sublist ?_)
    exact (List.filter_sublist).map Block.offset
  pending o ho := mem_freeSet.mpr (h.listing.mem_iff.mp ho)
  bucket k hk o ho := by
    have hMem := h.listing.mem_iff.mp (List.mem_flatMap.mpr ⟨k, hk, ho⟩)
    obtain ⟨b, hb, _, rfl⟩ := mem_freeOffsets.mp hMem
    have hSize : (m.tag b.offset).size = b.size := (h.header b hb).1.symm
    rw [hSize, Bucket.ofSize?_eq_some_iff]
    exact ⟨List.mem_range.mp hk, h.bucket k (List.mem_range.mp hk) b hb ho⟩

/-- The two walks together establish all rules, if no free block is left over. -/
theorem Walked.orderly (hSize : 144 ≤ m.size) (hHeader : m.word 132 = 9) (hFooter : m.word 136 = 9)
    (hWalked : m.Walked (m.size - 4) 140 none bs) (hEpilogue : m.word (m.size - 4) = 1)
    (hShared : m.Shared (List.range 32) (freeSet bs) chains)
    (hAll : ∀ o ∈ freeOffsets bs, o ∈ (List.range 32).flatMap chains) : m.Orderly ⟨bs, chains⟩ where
  size := hSize
  prologueHeader := hHeader
  prologueFooter := hFooter
  tiling := hWalked.tiling
  large b hb := (hWalked.fits b hb).large
  header b hb := by
    refine ⟨(hWalked.fits b hb).size, ?_⟩
    rw [(hWalked.fits b hb).allocated, tag, Tag.isAllocated, beq_iff_eq]
  epilogue := hEpilogue
  footer b hb := (hWalked.fits b hb).footer
  fenced := hWalked.fenced
  thread k hk := hShared.thread k (List.mem_range.mpr hk)
  listing := by
    refine (List.perm_ext_iff_of_nodup hShared.nodup ?_).mpr fun o => ⟨fun ho => ?_, hAll o⟩
    · exact hWalked.tiling.nodup_offset.sublist ((List.filter_sublist).map Block.offset)
    · exact mem_freeSet.mp (hShared.pending o ho)
  bucket k hk b hb ho := by
    have hBucket := hShared.bucket k (List.mem_range.mpr hk) b.offset ho
    have hSize : (m.tag b.offset).size = b.size := (hWalked.fits b hb).size.symm
    rw [hSize, Bucket.ofSize?_eq_some_iff] at hBucket
    exact hBucket.2

theorem size_foldl_erase_eq_zero_iff {l : List Nat} {free : Std.TreeSet Nat} :
    (l.foldl Std.TreeSet.erase free).size = 0 ↔ ∀ o ∈ free, o ∈ l := by
  rw [← beq_iff_eq, ← Std.TreeSet.isEmpty_eq_size_eq_zero, Std.TreeSet.isEmpty_iff_forall_not_mem]
  simp only [mem_foldl_erase, not_and', Decidable.not_not]

end Orderly

/-- The walks over all chains, after which nothing may be left over. -/
theorem auditListing_finds {free : Std.TreeSet Nat} (hEnd : epilogue + 4 = m.size)
    (hSize : 128 ≤ m.size) (hSafe : ∀ o ∈ free, m.Candidate epilogue o) :
    Audit.Finds (do
      let pending ← m.auditChains epilogue (List.range 32) free
      if pending.size ≠ 0 then
        throw (.unlistedFree (free.size - pending.size) free.size)) fun _ =>
      ∃ chains, m.Shared (List.range 32) free chains ∧
        ∀ o ∈ free, o ∈ (List.range 32).flatMap chains := by
  have hChains := auditChains_finds hEnd hSize (fun k hk => List.mem_range.mp hk) List.nodup_range
    hSafe
  refine (hChains.bind (p := fun pending _ => pending.size = 0) fun pending _ => ?_).congr
    fun _ => ?_
  · split
    · rename_i hLeft
      exact Audit.finds_throw _ fun _ => hLeft
    · rename_i hNone
      exact (Audit.finds_pure ()).congr fun _ => ⟨fun _ => Decidable.not_not.mp hNone, fun _ => rfl⟩
  · constructor
    · rintro ⟨_, ⟨chains, hShared, rfl⟩, hZero⟩
      exact ⟨chains, hShared, size_foldl_erase_eq_zero_iff.mp hZero⟩
    · rintro ⟨chains, hShared, hAll⟩
      exact ⟨_, ⟨chains, hShared, rfl⟩, size_foldl_erase_eq_zero_iff.mpr hAll⟩

theorem audit_finds (m : Memory) : m.audit.Finds fun _ => ∃ s, m.Orderly s := by
  rw [audit]
  dsimp only [Layout.bareSize, Layout.prologue, Layout.firstBlock, Layout.bucketCount]
  split
  · rename_i hShort
    exact Audit.finds_throw_bind _ fun _ ⟨s, h⟩ => absurd h.size (Nat.not_le.mpr hShort)
  rename_i hLong
  rw [tagAt_eq_ok (by omega), Audit.lift_ok_bind]
  split
  · rename_i hHeader
    exact Audit.finds_throw_bind _ fun _ ⟨s, h⟩ => hHeader (congrArg Tag.mk h.prologueHeader)
  rename_i hHeader
  rw [tagAt_eq_ok (by omega), Audit.lift_ok_bind]
  split
  · rename_i hFooter
    exact Audit.finds_throw_bind _ fun _ ⟨s, h⟩ => hFooter (congrArg Tag.mk h.prologueFooter)
  rename_i hFooter
  have hHeader' : m.word 132 = 9 := congrArg Tag.word (Decidable.not_not.mp hHeader)
  have hFooter' : m.word 136 = 9 := congrArg Tag.word (Decidable.not_not.mp hFooter)
  have hBlocks := auditBlocks_finds (show m.size - 4 + 4 = m.size by omega)
    (show 140 ≤ m.size - 4 by omega) none ∅
  refine (hBlocks.bind (p := fun free _ => ∃ chains,
    m.Shared (List.range 32) free chains ∧ ∀ o ∈ free, o ∈ (List.range 32).flatMap chains) ?_).congr
      fun _ => ?_
  · rintro free ⟨bs, hWalked, hEpilogue, rfl⟩
    exact auditListing_finds (by omega) (by omega) fun o ho => hWalked.candidate ho
  · constructor
    · rintro ⟨_, ⟨bs, hWalked, hEpilogue, rfl⟩, chains, hShared, hAll⟩
      exact ⟨⟨bs, chains⟩, hWalked.orderly (Nat.not_lt.mp hLong) hHeader' hFooter' hEpilogue hShared
        fun o ho => hAll o (mem_freeSet.mpr ho)⟩
    · rintro ⟨s, h⟩
      refine ⟨_, ⟨s.blocks, h.walked, h.epilogue, rfl⟩, s.chains, h.shared, ?_⟩
      exact fun o ho => h.listing.mem_iff.mpr (mem_freeSet.mp ho)

theorem verify_eq_ok_iff : m.verify = .ok (.ok ()) ↔ ∃ s, m.Orderly s := by
  obtain ⟨r, hRun, hFound⟩ := m.audit_finds
  rw [Memory.verify, hRun, Except.ok.injEq]
  exact hFound ()

end Memory

/-- Verification comes to an end inside the bytes, whatever they are, and accepts exactly the
memories in which all rules hold for some blocks and chains. -/
theorem Heap.verify_exact {S : Type} (h : Heap S) :
    ∃ r, h.verify = .ok r ∧ (r = .ok () ↔ ∃ s, h.memory.Orderly s) := by
  obtain ⟨r, hRun, hFound⟩ := h.memory.audit_finds
  exact ⟨r, hRun, hFound ()⟩

end TaggedHeap
