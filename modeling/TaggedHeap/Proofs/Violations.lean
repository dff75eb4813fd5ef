import TaggedHeap.Proofs.Upkeep
import TaggedHeap.Proofs.Verify

/-! # What a violation tells

Verification stops at the first rule that it finds broken. So a violation tells what is wrong and
where, and also that nothing is wrong with what is looked at before: the prologue, then the blocks in
the order of their offsets, then the chains in the order of the buckets.
-/

namespace TaggedHeap

namespace Audit

variable {α β : Type} {broken : Violation → Prop}

/-- Whatever the check reports is the case. -/
def Reports (run : Audit α) (broken : Violation → Prop) : Prop :=
  ∀ v, run = Except.ok (.error v) → broken v

theorem reports_pure (a : α) : (pure a : Audit α).Reports broken := by
  intro v hRun
  cases hRun

theorem reports_throw {v : Violation} (h : broken v) : (throw v : Audit α).Reports broken := by
  intro w hRun
  cases hRun
  exact h

theorem reports_throw_bind {v : Violation} {next : β → Audit α} (h : broken v) :
    ((throw v : Audit β) >>= next).Reports broken :=
  reports_throw h

theorem Reports.bind {run : Audit α} {next : α → Audit β} {found : α → Prop}
    (h : run.Reports broken) (hFinds : run.Finds found)
    (hNext : ∀ a, found a → (next a).Reports broken) : (run >>= next).Reports broken := by
  obtain ⟨r, rfl, hFound⟩ := hFinds
  cases r with
  | error v =>
    intro w hRun
    cases hRun
    exact h v rfl
  | ok a => exact hNext a ((hFound a).mp rfl)

end Audit

namespace Memory

variable {m : Memory} {bs : List Block} {chains : Chains} {k o back next : Nat} {l : List Nat}

/-- The prologue is intact, and the headers lead from the first block to an offset; nothing is wrong
with the blocks on the way. -/
structure Walks (m : Memory) (bs : List Block) (o : Nat) : Prop where
  size : 144 ≤ m.size
  header : m.word 132 = 9
  footer : m.word 136 = 9
  walked : m.Walked o 140 none bs

/-- The headers lead to the epilogue, with which nothing is wrong either. -/
structure Closes (m : Memory) (bs : List Block) : Prop where
  walks : m.Walks bs (m.size - 4)
  epilogue : m.word (m.size - 4) = 1

/-- A free block on the walk to which no chain of the buckets below `k` leads, nor the list `l`. -/
@[mk_iff pending_iff]
structure Pending (bs : List Block) (chains : Chains) (k : Nat) (l : List Nat) (o : Nat) : Prop where
  free : o ∈ freeOffsets bs
  unlisted : o ∉ (List.range k).flatMap chains ++ l

/-- The links lead from the head of bucket `k` past the blocks of a list, with which nothing is
wrong: each is pending, belongs to the bucket, and links back to the one before. The last of them is
`back`, and the link after it is `next`. -/
inductive Leads (m : Memory) (bs : List Block) (chains : Chains) (k : Nat) :
    List Nat → Nat → Nat → Prop where
  | head : Leads m bs chains k [] 0 (m.word (4 * k))
  | step {l : List Nat} {back b : Nat} (hLeads : Leads m bs chains k l back b) (hNe : b ≠ 0)
      (hPending : Pending bs chains k l b) (hBucket : Bucket.ofSize? (m.tag b).size = some k)
      (hBack : m.word (b + 8) = back) : Leads m bs chains k (l ++ [b]) b (m.word (b + 4))

/-- Nothing is wrong with the blocks and with the chains of the buckets below `k`, and the links lead
from the head of bucket `k` to a block. -/
structure Arrives (m : Memory) (bs : List Block) (chains : Chains) (k : Nat) (l : List Nat)
    (back b : Nat) : Prop where
  closes : m.Closes bs
  lower : m.Shared (List.range k) (freeSet bs) chains
  bucket : k < 32
  leads : m.Leads bs chains k l back b
  named : b ≠ 0

/-- Where a block with links can be. -/
structure InRange (m : Memory) (b : Nat) : Prop where
  low : 140 ≤ b
  high : b + 32 ≤ m.size - 4
  aligned : (b + 4) % 8 = 0

/-- The first rule that a memory breaks. -/
inductive Breaks (m : Memory) : Violation → Prop where
  | badPrologue (h : m.size < 144 ∨ m.word 132 ≠ 9 ∨ m.word 136 ≠ 9) : Breaks m .badPrologue
  | badBlockSize {bs : List Block} {o : Nat} (hWalks : m.Walks bs o) (hMore : o < m.size - 4)
      (hSmall : (m.tag o).size < 32) : Breaks m (.badBlockSize o (m.tag o).size)
  | blockOutOfBounds {bs : List Block} {o : Nat} (hWalks : m.Walks bs o) (hMore : o < m.size - 4)
      (hLarge : 32 ≤ (m.tag o).size) (hLong : m.size - 4 < o + (m.tag o).size) :
      Breaks m (.blockOutOfBounds o (m.tag o).size)
  | tagMismatch {bs : List Block} {o : Nat} (hWalks : m.Walks bs o) (hLarge : 32 ≤ (m.tag o).size)
      (hShort : o + (m.tag o).size ≤ m.size - 4) (hFree : (m.tag o).isAllocated = false)
      (hFooter : m.word (o + (m.tag o).size - 4) ≠ m.word o) :
      Breaks m (.tagMismatch o (m.word o) (m.word (o + (m.tag o).size - 4)))
  | adjacentFree {bs : List Block} {a : Block} {o : Nat} (hWalks : m.Walks (bs ++ [a]) o)
      (hFirst : a.allocated = false) (hShort : o + (m.tag o).size ≤ m.size - 4)
      (hFits : m.Fits (m.blockAt o)) (hFree : (m.tag o).isAllocated = false) :
      Breaks m (.adjacentFree a.offset o)
  | badEpilogue {bs : List Block} (hWalks : m.Walks bs (m.size - 4))
      (hWord : m.word (m.size - 4) ≠ 1) : Breaks m (.badEpilogue (m.size - 4))
  | allocatedInList {bs : List Block} {chains : Chains} {k back b : Nat} {l : List Nat}
      (hArrives : m.Arrives bs chains k l back b) (hRange : m.InRange b)
      (hAllocated : (m.tag b).isAllocated = true) : Breaks m (.allocatedInList b k)
  | wrongBucket {bs : List Block} {chains : Chains} {k back b : Nat} {l : List Nat}
      (hArrives : m.Arrives bs chains k l back b) (hPending : Pending bs chains k l b)
      (hBucket : Bucket.ofSize? (m.tag b).size ≠ some k) :
      Breaks m (.wrongBucket b k (Bucket.ofSize? (m.tag b).size))
  | outOfRange {bs : List Block} {chains : Chains} {k back b : Nat} {l : List Nat}
      (hArrives : m.Arrives bs chains k l back b) (hRange : ¬ m.InRange b) :
      Breaks m (.brokenLink b k)
  | notPending {bs : List Block} {chains : Chains} {k back b : Nat} {l : List Nat}
      (hArrives : m.Arrives bs chains k l back b) (hRange : m.InRange b)
      (hFree : (m.tag b).isAllocated = false) (hNot : ¬ Pending bs chains k l b) :
      Breaks m (.brokenLink b k)
  | wrongBack {bs : List Block} {chains : Chains} {k back b : Nat} {l : List Nat}
      (hArrives : m.Arrives bs chains k l back b) (hPending : Pending bs chains k l b)
      (hBucket : Bucket.ofSize? (m.tag b).size = some k) (hBack : m.word (b + 8) ≠ back) :
      Breaks m (.brokenLink b k)
  | unlistedFree {bs : List Block} {chains : Chains} {listed walked : Nat} (hCloses : m.Closes bs)
      (hShared : m.Shared (List.range 32) (freeSet bs) chains)
      (hListed : ((List.range 32).flatMap chains).length = listed)
      (hWalked : (freeOffsets bs).length = walked) (hLess : listed < walked) :
      Breaks m (.unlistedFree listed walked)

section Blocks

/-- The last of some blocks, if it is free. -/
def lastFree (bs : List Block) : Option Nat :=
  bs.getLast?.bind fun b => if b.allocated then none else some b.offset

theorem lastFree_concat (bs : List Block) (b : Block) :
    lastFree (bs ++ [b]) = if b.allocated then none else some b.offset := by
  simp [lastFree]

theorem of_lastFree {first : Nat} (h : lastFree bs = some first) :
    ∃ pre a, bs = pre ++ [a] ∧ a.allocated = false ∧ a.offset = first := by
  obtain ⟨a, hLast, hFirst⟩ := Option.bind_eq_some_iff.mp h
  obtain ⟨pre, rfl⟩ := List.getLast?_eq_some_iff.mp hLast
  split at hFirst
  · cases hFirst
  · rename_i hFree
    exact ⟨pre, a, rfl, Bool.eq_false_iff.mpr hFree, Option.some.inj hFirst⟩

theorem Walks.concat (h : m.Walks bs o) (hFits : m.Fits (m.blockAt o))
    (hFenced : (m.tag o).isAllocated = true ∨ lastFree bs = none) :
    m.Walks (bs ++ [m.blockAt o]) (o + (m.tag o).size) := by
  obtain ⟨hTiling, hOld, hIntact, _⟩ := h.walked
  have hLarge : 32 ≤ (m.tag o).size := hFits.large
  have hNew : Tiling o [m.blockAt o] (o + (m.tag o).size) :=
    Tiling.single (le_trans (by decide) hLarge) (Tag.size_mod_eight _)
  refine { h with walked := ⟨hTiling.append hNew, ?_, ?_, fun _ _ => Or.inr rfl⟩ }
  · intro b hb
    rcases List.mem_append.mp hb with hb | hb
    · exact hOld b hb
    · exact List.mem_singleton.mp hb ▸ hFits
  · refine List.isChain_append.mpr ⟨hIntact, List.IsChain.singleton _, ?_⟩
    intro a ha b hb
    cases hb
    refine hFenced.symm.imp_left fun hNone => ?_
    rw [lastFree, Option.mem_def.mp ha, Option.bind_some] at hNone
    by_contra hFree
    rw [if_neg hFree] at hNone
    cases hNone

/-- Whatever the walk over the blocks reports, it has passed all blocks before. -/
theorem auditBlocks_reports (hWalks : m.Walks bs o) (hLe : o ≤ m.size - 4)
    (free : Std.TreeSet Nat) :
    (m.auditBlocks (m.size - 4) o (lastFree bs) free).Reports m.Breaks := by
  -- By what is left up to the epilogue. The blocks that have been passed grow at their end.
  induction hn : m.size - 4 - o using Nat.strongRecOn generalizing o bs free with
  | ind n ih =>
  subst hn
  have hSize := hWalks.size
  rw [auditBlocks]
  rcases Nat.lt_or_eq_of_le hLe with hMore | rfl
  · rw [dif_pos hMore, tagAt_eq_ok (by omega), Audit.lift_ok_bind]
    dsimp only [Layout.minBlock]
    split
    · rename_i hSmall
      exact Audit.reports_throw (.badBlockSize hWalks hMore hSmall)
    rename_i hLarge
    split
    · rename_i hLong
      exact Audit.reports_throw (.blockOutOfBounds hWalks hMore (Nat.not_lt.mp hLarge) hLong)
    rename_i hShort
    have hNext : ∀ free, m.Fits (m.blockAt o) →
        ((m.tag o).isAllocated = true ∨ lastFree bs = none) →
        (m.auditBlocks (m.size - 4) (o + (m.tag o).size)
          (if (m.tag o).isAllocated then none else some o) free).Reports m.Breaks := by
      intro free hFits hFenced
      have hRest := ih (m.size - 4 - (o + (m.tag o).size)) (by omega) (hWalks.concat hFits hFenced)
        (Nat.not_lt.mp hShort) free rfl
      rwa [lastFree_concat] at hRest
    cases hA : (m.tag o).isAllocated with
    | true =>
      rw [hA, if_pos rfl] at hNext
      rw [if_pos rfl]
      refine hNext free ?_ (Or.inl rfl)
      exact ⟨Nat.not_lt.mp hLarge, rfl, rfl, fun hB => Bool.noConfusion (hA.symm.trans hB)⟩
    | false =>
      rw [hA, if_neg Bool.false_ne_true] at hNext
      rw [if_neg Bool.false_ne_true, tagAt_eq_ok (by omega), Audit.lift_ok_bind]
      split
      · rename_i hFooter
        exact Audit.reports_throw_bind (.tagMismatch hWalks (Nat.not_lt.mp hLarge)
          (Nat.not_lt.mp hShort) hA fun hWord => hFooter (congrArg Tag.mk hWord))
      rename_i hFooter
      have hFits : m.Fits (m.blockAt o) := by
        refine ⟨Nat.not_lt.mp hLarge, rfl, rfl, fun _ => ?_⟩
        exact congrArg Tag.word (Decidable.not_not.mp hFooter)
      cases hLast : lastFree bs with
      | some first =>
        obtain ⟨pre, a, rfl, hFree, rfl⟩ := of_lastFree hLast
        exact Audit.reports_throw_bind
          (.adjacentFree hWalks hFree (Nat.not_lt.mp hShort) hFits hA)
      | none => exact hNext (free.insert o) hFits (Or.inr hLast)
  · rw [dif_neg (Nat.lt_irrefl _), tagAt_eq_ok (by omega), Audit.lift_ok_bind]
    dsimp only
    split
    · rename_i hEpilogue
      exact Audit.reports_throw_bind
        (.badEpilogue hWalks fun hWord => hEpilogue (congrArg Tag.mk hWord))
    · exact Audit.reports_pure free

end Blocks

section Chains

theorem pending_nil :
    Pending bs chains k [] o ↔ o ∈ freeOffsets bs ∧ o ∉ (List.range k).flatMap chains := by
  simp [pending_iff]

theorem pending_concat {b : Nat} :
    Pending bs chains k (l ++ [b]) o ↔ o ≠ b ∧ Pending bs chains k l o := by
  simp only [pending_iff, List.mem_append, List.mem_singleton, not_or]
  tauto

/-- Whatever the walk over a chain reports, it has passed all blocks of the chain before. -/
theorem auditChain_reports (hCloses : m.Closes bs)
    (hLower : m.Shared (List.range k) (freeSet bs) chains) (hk : k < 32)
    (hLeads : m.Leads bs chains k l back next) {pending : Std.TreeSet Nat}
    (hPending : ∀ o, o ∈ pending ↔ Pending bs chains k l o) :
    (m.auditChain (m.size - 4) k (blockNamed back) (blockNamed next) pending).Reports m.Breaks := by
  -- Each block uses up a pending one.
  induction hn : pending.size using Nat.strongRecOn generalizing l back next pending with
  | ind n ih =>
  subst hn
  have hSize := hCloses.walks.size
  rw [auditChain.eq_def]
  rcases eq_or_ne next 0 with rfl | hNe
  · rw [blockNamed_zero]
    exact Audit.reports_pure pending
  have hArrives : m.Arrives bs chains k l back next := ⟨hCloses, hLower, hk, hLeads, hNe⟩
  rw [blockNamed_of_ne hNe]
  dsimp only [Layout.firstBlock, Layout.minBlock, Layout.alignment]
  split
  · rename_i hOut
    refine Audit.reports_throw_bind (.outOfRange hArrives ?_)
    rintro ⟨hLow, hHigh, hAligned⟩
    omega
  rename_i hIn
  have hRange : m.InRange next := ⟨by omega, by omega, by omega⟩
  rw [tagAt_eq_ok (by omega), Audit.lift_ok_bind]
  split
  · rename_i hAllocated
    exact Audit.reports_throw_bind (.allocatedInList hArrives hRange hAllocated)
  rename_i hFree
  split
  · rename_i hMem
    have hNext := (hPending next).mp hMem
    split
    · rename_i hBucket
      exact Audit.reports_throw_bind (.wrongBucket hArrives hNext hBucket)
    rename_i hBucket
    have hBucket := Decidable.not_not.mp hBucket
    rw [previous_eq_ok (by omega), Audit.lift_ok_bind]
    split
    · rename_i hBack
      exact Audit.reports_throw_bind (.wrongBack hArrives hNext hBucket fun hEq =>
        hBack (blockNamed_inj.mpr hEq))
    rename_i hBack
    have hBack' : m.word (next + 8) = back := blockNamed_inj.mp (Decidable.not_not.mp hBack)
    rw [next_eq_ok (by omega), Audit.lift_ok_bind, ← blockNamed_of_ne hNe]
    refine ih _ (size_erase_lt hMem) (hLeads.step hNe hNext hBucket hBack') (fun o => ?_) rfl
    rw [mem_erase, hPending]
    exact pending_concat.symm
  · rename_i hMissing
    exact Audit.reports_throw (.notPending hArrives hRange (Bool.eq_false_iff.mpr hFree)
      fun hNext => hMissing ((hPending next).mpr hNext))

/-- The chain of one more bucket is in order. -/
theorem Shared.concat {pending : Std.TreeSet Nat} (h : m.Shared (List.range k) (freeSet bs) chains)
    (hPending : ∀ o ∈ pending, Pending bs chains k [] o) (hUsed : m.Used k (4 * k) 0 pending l) :
    m.Shared (List.range (k + 1)) (freeSet bs) (Function.update chains k l) ∧
      (List.range (k + 1)).flatMap (Function.update chains k l) =
        (List.range k).flatMap chains ++ l := by
  have hSame : ∀ j ∈ List.range k, Function.update chains k l j = chains j := fun j hj =>
    Function.update_of_ne (List.mem_range.mp hj).ne l chains
  obtain ⟨⟨hThread, hBucket, hNodup, hListed⟩, hEq⟩ := h.congr hSame
  have hAll : (List.range (k + 1)).flatMap (Function.update chains k l) =
      (List.range k).flatMap chains ++ l := by
    rw [List.range_succ, List.flatMap_append, hEq, List.flatMap_singleton, Function.update_self]
  have hCases : ∀ j ∈ List.range (k + 1), j ∈ List.range k ∨ j = k := by
    intro j hj
    rwa [List.range_succ, List.mem_append, List.mem_singleton] at hj
  refine ⟨⟨?_, ?_, ?_, ?_⟩, hAll⟩
  · intro j hj
    rcases hCases j hj with hj | rfl
    · exact hThread j hj
    · rw [Function.update_self]
      exact hUsed.thread
  · intro j hj
    rcases hCases j hj with hj | rfl
    · exact hBucket j hj
    · rw [Function.update_self]
      exact hUsed.bucket
  · rw [hAll]
    refine List.nodup_append.mpr ⟨hEq ▸ hNodup, hUsed.nodup, ?_⟩
    rintro o ho _ ho' rfl
    exact (pending_nil.mp (hPending o (hUsed.pending o ho'))).2 ho
  · rw [hAll]
    intro o ho
    rcases List.mem_append.mp ho with ho | ho
    · exact hListed o (hEq ▸ ho)
    · exact mem_freeSet.mpr (hPending o (hUsed.pending o ho)).free

theorem auditChains_reports {n : Nat} (hCloses : m.Closes bs) (hEnd : k + n = 32)
    (hLower : m.Shared (List.range k) (freeSet bs) chains) {pending : Std.TreeSet Nat}
    (hPending : ∀ o, o ∈ pending ↔ Pending bs chains k [] o) :
    (m.auditChains (m.size - 4) (List.range' k n) pending).Reports m.Breaks := by
  induction n generalizing k chains pending with
  | zero => exact Audit.reports_pure pending
  | succ n ih =>
    have hSize := hCloses.walks.size
    have hSafe : ∀ o ∈ pending, m.Candidate (m.size - 4) o := fun o ho =>
      hCloses.walks.walked.candidate (mem_freeSet.mpr ((hPending o).mp ho).free)
    rw [List.range'_succ, auditChains, head_eq_ok (by omega), Audit.lift_ok_bind]
    refine (auditChain_reports hCloses hLower (by omega) .head hPending).bind
      (auditChain_finds k (4 * k) 0 (by omega) hSafe) ?_
    rintro _ ⟨l, hUsed, rfl⟩
    obtain ⟨hLower', hAll⟩ := hLower.concat (fun o ho => (hPending o).mp ho) hUsed
    refine ih (by omega) hLower' fun o => ?_
    rw [mem_foldl_erase, hPending, pending_nil, pending_nil, hAll, List.mem_append, not_or]
    tauto

end Chains

section Listing

theorem size_foldl_insert {free : Std.TreeSet Nat} (hNodup : l.Nodup) (hNew : ∀ o ∈ l, o ∉ free) :
    (l.foldl Std.TreeSet.insert free).size = free.size + l.length := by
  induction l generalizing free with
  | nil => rfl
  | cons a l ih =>
    obtain ⟨hNot, hNodup⟩ := List.nodup_cons.mp hNodup
    obtain ⟨hFirst, hRest⟩ := List.forall_mem_cons.mp hNew
    have hNew' : ∀ o ∈ l, o ∉ free.insert a := by
      intro o ho hMem
      rw [Std.TreeSet.mem_insert, compare_eq_iff_eq] at hMem
      rcases hMem with rfl | hOld
      · exact hNot ho
      · exact hRest o ho hOld
    rw [List.foldl_cons, ih hNodup hNew', Std.TreeSet.size_insert,
      if_neg fun hIn => hFirst (Std.TreeSet.mem_iff_contains.mpr hIn), List.length_cons]
    omega

theorem size_foldl_erase {pending : Std.TreeSet Nat} (hNodup : l.Nodup)
    (hIn : ∀ o ∈ l, o ∈ pending) :
    (l.foldl Std.TreeSet.erase pending).size + l.length = pending.size := by
  induction l generalizing pending with
  | nil => rfl
  | cons a l ih =>
    obtain ⟨hNot, hNodup⟩ := List.nodup_cons.mp hNodup
    obtain ⟨hFirst, hRest⟩ := List.forall_mem_cons.mp hIn
    have hIn' : ∀ o ∈ l, o ∈ pending.erase a := by
      intro o ho
      refine mem_erase.mpr ⟨?_, hRest o ho⟩
      rintro rfl
      exact hNot ho
    have hLess := size_erase_lt hFirst
    have hStep := ih hNodup hIn'
    rw [Std.TreeSet.size_erase, if_pos (Std.TreeSet.mem_iff_contains.mp hFirst)] at hStep hLess
    rw [List.foldl_cons, List.length_cons]
    omega

theorem Closes.length_freeOffsets (h : m.Closes bs) :
    (freeSet bs).size = (freeOffsets bs).length := by
  have hNodup : (freeOffsets bs).Nodup :=
    h.walks.walked.tiling.nodup_offset.sublist ((List.filter_sublist).map Block.offset)
  rw [freeSet, size_foldl_insert hNodup fun _ _ => Std.TreeSet.not_mem_emptyc,
    Std.TreeSet.size_emptyc, Nat.zero_add]

/-- What the chains leave over has been counted right, since no block is in them twice. -/
theorem auditListing_reports (hCloses : m.Closes bs) :
    Audit.Reports (do
      let pending ← m.auditChains (m.size - 4) (List.range 32) (freeSet bs)
      if pending.size ≠ 0 then
        throw (.unlistedFree ((freeSet bs).size - pending.size) (freeSet bs).size)) m.Breaks := by
  have hSize := hCloses.walks.size
  have hNone : m.Shared (List.range 0) (freeSet bs) fun _ => [] :=
    ⟨fun _ hk => absurd hk List.not_mem_nil, fun _ hk => absurd hk List.not_mem_nil,
      List.nodup_nil, fun _ ho => absurd ho List.not_mem_nil⟩
  have hAll : ∀ o, o ∈ freeSet bs ↔ Pending bs (fun _ => []) 0 [] o := by
    intro o
    rw [mem_freeSet, pending_nil, List.range_zero, List.flatMap_nil]
    exact (and_iff_left List.not_mem_nil).symm
  have hChains := auditChains_reports (n := 32) hCloses (Nat.zero_add 32) hNone hAll
  rw [← List.range_eq_range'] at hChains
  refine hChains.bind (auditChains_finds (by omega) (by omega) (fun k hk => List.mem_range.mp hk)
    List.nodup_range fun o ho => hCloses.walks.walked.candidate ho) ?_
  rintro _ ⟨chains, hShared, rfl⟩
  have hLength := size_foldl_erase hShared.nodup hShared.pending
  rw [hCloses.length_freeOffsets] at hLength ⊢
  split
  · exact Audit.reports_throw (.unlistedFree hCloses hShared (by omega) rfl (by omega))
  · exact Audit.reports_pure ()

end Listing

theorem audit_reports (m : Memory) : m.audit.Reports m.Breaks := by
  rw [audit]
  dsimp only [Layout.bareSize, Layout.prologue, Layout.firstBlock, Layout.bucketCount]
  split
  · rename_i hShort
    exact Audit.reports_throw_bind (.badPrologue (Or.inl hShort))
  rename_i hLong
  rw [tagAt_eq_ok (by omega), Audit.lift_ok_bind]
  split
  · rename_i hHeader
    exact Audit.reports_throw_bind
      (.badPrologue (Or.inr (Or.inl fun hWord => hHeader (congrArg Tag.mk hWord))))
  rename_i hHeader
  rw [tagAt_eq_ok (by omega), Audit.lift_ok_bind]
  split
  · rename_i hFooter
    exact Audit.reports_throw_bind
      (.badPrologue (Or.inr (Or.inr fun hWord => hFooter (congrArg Tag.mk hWord))))
  rename_i hFooter
  have hStart : ∀ bs, m.Walked (m.size - 4) 140 none bs → m.Walks bs (m.size - 4) := fun bs h =>
    ⟨Nat.not_lt.mp hLong, congrArg Tag.word (Decidable.not_not.mp hHeader),
      congrArg Tag.word (Decidable.not_not.mp hFooter), h⟩
  have hFirst : m.Walks [] 140 :=
    ⟨Nat.not_lt.mp hLong, congrArg Tag.word (Decidable.not_not.mp hHeader),
      congrArg Tag.word (Decidable.not_not.mp hFooter), walked_nil_iff.mpr rfl⟩
  refine (auditBlocks_reports hFirst (by omega) ∅).bind
    (auditBlocks_finds (by omega) (by omega) none ∅) ?_
  rintro free ⟨bs, hWalked, hEpilogue, rfl⟩
  exact auditListing_reports ⟨hStart bs hWalked, hEpilogue⟩

end Memory

/-- Whatever verification reports is the first rule that the bytes break. -/
theorem Heap.verify_first {S : Type} {h : Heap S} {v : Violation}
    (hVerify : h.verify = .ok (.error v)) : h.memory.Breaks v :=
  h.memory.audit_reports v hVerify

/-- A free block in the chain of a bucket that is too narrow for it. -/
def Heap.misfiled : Heap Cap :=
  let bare := laid [40, 0, 0, 0, 0, 0, 0, 0, 0, 40] (by decide)
  bare.withMemory (bare.memory.setWord 20 140)

theorem Heap.verify_first_misfiled :
    misfiled.verify = .ok (.error (.wrongBucket 140 5 (some 6))) ∧
      misfiled.memory.Breaks (.wrongBucket 140 5 (some 6)) := by
  have hVerify : misfiled.verify = .ok (.error (.wrongBucket 140 5 (some 6))) := by decide +kernel
  exact ⟨hVerify, verify_first hVerify⟩

end TaggedHeap
