import TaggedHeap.Proofs.Upkeep

/-! # Damaged words

Verification accepts no change of a single word of the sentinels, of the directory, or of the links
and footers of free blocks. The headers say which blocks there are and which bucket each free block
belongs to, so a changed link or slot would have to lead to the same blocks as before. But a slot and
the links to the next blocks lead to each block of a chain once and then nowhere, in whichever order
they do so, and that settles each of them by the others.
-/

namespace TaggedHeap

namespace Memory

variable {m n : Memory} {s t : Shape} {i : Nat}

/-- The words that no heap in use can do without: all but the headers, the padding, and what
allocated blocks and the rest of free blocks hold. -/
inductive Vital (m : Memory) : Nat → Prop where
  | prologueHeader : Vital m 132
  | prologueFooter : Vital m 136
  | epilogue : Vital m (m.size - 4)
  | slot {k : Nat} (hk : k < 32) : Vital m (4 * k)
  | footer {b : Block} (hb : b ∈ m.blocks) (hFree : b.allocated = false) :
      Vital m (b.offset + b.size - 4)
  | next {b : Block} (hb : b ∈ m.blocks) (hFree : b.allocated = false) : Vital m (b.offset + 4)
  | previous {b : Block} (hb : b ∈ m.blocks) (hFree : b.allocated = false) : Vital m (b.offset + 8)

/-- One size, and one value of every word but one. Words are at multiples of their size. -/
structure SameBut (m n : Memory) (i : Nat) : Prop where
  size : n.size = m.size
  word : ∀ j, j % 4 = 0 → j ≠ i → n.word j = m.word j

theorem sameBut_setWord {w : Nat} (hInside : i + 4 ≤ m.size) (hAligned : i % 4 = 0) :
    m.SameBut (m.setWord i w) i := by
  refine ⟨size_setWord m i w, fun j hj hNe => ?_⟩
  exact word_setWord_of_disjoint hInside (by omega)

namespace Thread

variable {entry back back' : Nat} {l l' : List Nat}

/-- The links that lead from block to block, the entry of the thread first. -/
def links (entry : Nat) (l : List Nat) : List Nat := entry :: l.map (· + 4)

theorem map_links (h : m.Thread entry back l) : (links entry l).map m.word = l ++ [0] := by
  induction l generalizing entry back with
  | nil => exact congrArg (fun w => [w]) h
  | cons b l ih =>
    obtain ⟨_, hEntry, _, hRest⟩ := h
    calc (links entry (b :: l)).map m.word
        = m.word entry :: (links (b + 4) l).map m.word := rfl
      _ = b :: (l ++ [0]) := by rw [hEntry, ih hRest]

/-- The links of a thread add up to its blocks. So if a thread leads to the blocks of another one,
in any order, and all of its links but one are those of the other, so is that one. -/
theorem word_eq_of_perm (h : m.Thread entry back l) (h' : n.Thread entry back' l')
    (hPerm : l'.Perm l) (hNodup : (links entry l).Nodup) (hi : i ∈ links entry l)
    (hSame : ∀ j ∈ links entry l, j ≠ i → n.word j = m.word j) : n.word i = m.word i := by
  have hLinks : (links entry l').Perm (links entry l) := (hPerm.map _).cons entry
  have hSum : ((links entry l).map n.word).sum = ((links entry l).map m.word).sum := by
    rw [← (hLinks.map n.word).sum_nat, h'.map_links, h.map_links]
    exact (hPerm.append_right [0]).sum_nat
  have hOthers : ((links entry l).erase i).map n.word = ((links entry l).erase i).map m.word := by
    apply List.map_congr_left
    intro j hj
    obtain ⟨hNe, hMem⟩ := hNodup.mem_erase_iff.mp hj
    exact hSame j hMem hNe
  have hFirst := List.perm_cons_erase hi
  rw [(hFirst.map n.word).sum_nat, (hFirst.map m.word).sum_nat, List.map_cons, List.map_cons,
    List.sum_cons, List.sum_cons, hOthers] at hSum
  exact Nat.add_right_cancel hSum

/-- A thread is settled by the links that lead from block to block. -/
theorem eq_of_links (h : m.Thread entry back l) (h' : n.Thread entry back' l')
    (hSame : ∀ j ∈ links entry l, n.word j = m.word j) : l' = l := by
  induction l generalizing entry back back' l' with
  | nil =>
    have hEntry : n.word entry = 0 := (hSame entry List.mem_cons_self).trans h
    cases l' with
    | nil => rfl
    | cons b' l' => exact absurd (h'.2.1.symm.trans hEntry) h'.1
  | cons b l ih =>
    obtain ⟨hZero, hEntry, _, hRest⟩ := h
    have hEntry' : n.word entry = b := (hSame entry List.mem_cons_self).trans hEntry
    cases l' with
    | nil => exact absurd (hEntry'.symm.trans h') hZero
    | cons b' l' =>
      obtain ⟨_, hFirst, _, hRest'⟩ := h'
      obtain rfl : b' = b := hFirst.symm.trans hEntry'
      rw [ih hRest hRest' fun j hj => hSame j (List.mem_cons_of_mem entry hj)]

end Thread

namespace Orderly

variable {k o : Nat} {b : Block}

theorem blocks (h : m.Orderly s) : m.blocks = s.blocks := by
  refine blocksFrom_tiling h.tiling fun b hb => ?_
  exact ⟨(h.walked.fits b hb).size.symm, (h.walked.fits b hb).allocated.symm⟩

theorem bounds (h : m.Orderly s) (hb : b ∈ s.blocks) :
    140 ≤ b.offset ∧ b.offset + b.size + 4 ≤ m.size ∧ 32 ≤ b.size ∧ b.size % 8 = 0 ∧
      b.offset % 8 = 4 := by
  have hSize := h.size
  have hLarge := h.large b hb
  obtain ⟨hLow, hHigh, _, hMod, hOffset⟩ := h.tiling.bounds hb
  exact ⟨hLow, by omega, hLarge, hMod, by omega⟩

theorem size_mod (h : m.Orderly s) : m.size % 8 = 0 := by
  have hSize := h.size
  have hMod := h.tiling.width_mod
  omega

/-- Where the blocks are the same, so are the blocks in each bucket, though not their order. -/
theorem perm_chain (h : m.Orderly s) (h' : n.Orderly t) (hBlocks : t.blocks = s.blocks)
    (hk : k < 32) : (t.chains k).Perm (s.chains k) := by
  refine (List.perm_ext_iff_of_nodup (h'.nodup_chain hk) (h.nodup_chain hk)).mpr fun o => ?_
  rw [h.mem_chain_iff hk, h'.mem_chain_iff hk, hBlocks]

theorem mem_links (h : m.Orderly s) (hk : k < 32) {j : Nat}
    (hj : j ∈ Thread.links (4 * k) (s.chains k)) : j = 4 * k ∨ ∃ b ∈ s.blocks, j = b.offset + 4 := by
  refine (List.mem_cons.mp hj).imp_right fun hLink => ?_
  obtain ⟨o, ho, rfl⟩ := List.mem_map.mp hLink
  obtain ⟨b, hb, _, rfl, _⟩ := (h.mem_chain_iff hk).mp ho
  exact ⟨b, hb, rfl⟩

theorem aligned_of_mem_links (h : m.Orderly s) (hk : k < 32) {j : Nat}
    (hj : j ∈ Thread.links (4 * k) (s.chains k)) : j % 4 = 0 := by
  rcases h.mem_links hk hj with rfl | ⟨b, hb, rfl⟩
  · omega
  · have hBounds := h.bounds hb
    omega

theorem nodup_links (h : m.Orderly s) (hk : k < 32) :
    (Thread.links (4 * k) (s.chains k)).Nodup := by
  refine List.nodup_cons.mpr ⟨fun hMem => ?_, ?_⟩
  · obtain ⟨o, ho, hEq⟩ := List.mem_map.mp hMem
    obtain ⟨b, hb, _, rfl, _⟩ := (h.mem_chain_iff hk).mp ho
    have hBounds := h.bounds hb
    omega
  · exact (h.nodup_chain hk).map fun a b hEq => Nat.add_right_cancel hEq

/-- Within a block no word but the first is a header. -/
theorem offset_ne (h : m.Orderly s) (hb : b ∈ m.blocks) (hLow : b.offset < i)
    (hHigh : i < b.offset + b.size) : ∀ c ∈ s.blocks, c.offset ≠ i := by
  intro c hc
  rw [h.blocks] at hb
  rcases h.tiling.eq_or_apart hc hb with rfl | hApart
  · omega
  · have hBounds := h.bounds hc
    omega

theorem vital_bounds (h : m.Orderly s) (hVital : m.Vital i) :
    i % 4 = 0 ∧ i + 4 ≤ m.size ∧ ∀ c ∈ s.blocks, c.offset ≠ i := by
  have hSize := h.size
  have hMod := h.size_mod
  have hOutside : ∀ j, j < 140 ∨ m.size ≤ j + 4 → ∀ c ∈ s.blocks, c.offset ≠ j := by
    intro j hj c hc
    have hBounds := h.bounds hc
    omega
  cases hVital with
  | prologueHeader => exact ⟨rfl, by omega, hOutside _ (by omega)⟩
  | prologueFooter => exact ⟨rfl, by omega, hOutside _ (by omega)⟩
  | epilogue => exact ⟨by omega, by omega, hOutside _ (by omega)⟩
  | slot hk => exact ⟨by omega, by omega, hOutside _ (by omega)⟩
  | @footer b hb _ =>
    have hBounds := h.bounds (h.blocks ▸ hb)
    exact ⟨by omega, by omega, h.offset_ne hb (by omega) (by omega)⟩
  | @next b hb _ =>
    have hBounds := h.bounds (h.blocks ▸ hb)
    exact ⟨by omega, by omega, h.offset_ne hb (by omega) (by omega)⟩
  | @previous b hb _ =>
    have hBounds := h.bounds (h.blocks ▸ hb)
    exact ⟨by omega, by omega, h.offset_ne hb (by omega) (by omega)⟩

section Settled

variable (h : m.Orderly s) (h' : n.Orderly t) (hSame : m.SameBut n i)

include h h' hSame

/-- The headers settle the blocks. -/
theorem blocks_eq (hHeaders : ∀ c ∈ s.blocks, c.offset ≠ i) : t.blocks = s.blocks := by
  rw [← h'.blocks, Memory.blocks, hSame.size]
  refine blocksFrom_tiling h.tiling fun b hb => ?_
  have hBounds := h.bounds hb
  have hFits := h.walked.fits b hb
  rw [tag, hSame.word b.offset (by omega) (hHeaders b hb)]
  exact ⟨hFits.size.symm, hFits.allocated.symm⟩

/-- The blocks of a bucket settle each slot and link by the others. -/
theorem link_eq (hBlocks : t.blocks = s.blocks) (hk : k < 32)
    (hi : i ∈ Thread.links (4 * k) (s.chains k)) : n.word i = m.word i := by
  apply (h.thread k hk).word_eq_of_perm (h'.thread k hk) (h.perm_chain h' hBlocks hk)
    (h.nodup_links hk) hi
  exact fun j hj hNe => hSame.word j (h.aligned_of_mem_links hk hj) hNe

/-- The slots and links settle the links back. -/
theorem back_eq (hk : k < 32) (ho : o ∈ s.chains k) (hi : i = o + 8) : n.word i = m.word i := by
  obtain ⟨b, hb, _, rfl, _⟩ := (h.mem_chain_iff hk).mp ho
  have hBounds := h.bounds hb
  have hThread := h.thread k hk
  have hThread' := h'.thread k hk
  have hChain : t.chains k = s.chains k := by
    refine hThread.eq_of_links hThread' fun j hj => ?_
    refine hSame.word j (h.aligned_of_mem_links hk hj) ?_
    rcases h.mem_links hk hj with rfl | ⟨c, hc, rfl⟩
    · omega
    · have hBoundsC := h.bounds hc
      omega
  obtain ⟨l₁, l₂, hSplit⟩ := List.append_of_mem ho
  rw [hChain, hSplit] at hThread'
  rw [hSplit] at hThread
  rw [hi, hThread.read.1, hThread'.read.1]

theorem vital_eq (hVital : m.Vital i) : n.word i = m.word i := by
  have hBlocks := h.blocks_eq h' hSame (h.vital_bounds hVital).2.2
  have hBounds := fun b hb => h.bounds (b := b) hb
  cases hVital with
  | prologueHeader => rw [h'.prologueHeader, h.prologueHeader]
  | prologueFooter => rw [h'.prologueFooter, h.prologueFooter]
  | epilogue => rw [h.epilogue, ← hSame.size, h'.epilogue]
  | @slot k hk => exact h.link_eq h' hSame hBlocks hk List.mem_cons_self
  | @footer b hb hFree =>
    rw [h.blocks] at hb
    have hLarge := hBounds b hb
    rw [h'.footer b (hBlocks ▸ hb) hFree, h.footer b hb hFree]
    exact hSame.word b.offset (by omega) (by omega)
  | @next b hb hFree =>
    obtain ⟨k, hk, ho⟩ := h.exists_chain (h.blocks ▸ hb) hFree
    exact h.link_eq h' hSame hBlocks hk (List.mem_cons_of_mem _ (List.mem_map_of_mem ho))
  | @previous b hb hFree =>
    obtain ⟨k, hk, ho⟩ := h.exists_chain (h.blocks ▸ hb) hFree
    exact h.back_eq h' hSame hk ho rfl

end Settled

end Orderly

end Memory

namespace Heap

variable {S : Type} {h : Heap S} {i w : Nat}

/-- Whichever bytes verification accepts, it rejects them once a vital word has another value. -/
theorem verify_damaged (hVerify : h.verify = .ok (.ok ())) (hVital : h.memory.Vital i)
    (hWord : w < 2 ^ 32) (hNew : w ≠ h.memory.word i) :
    ∃ v, (h.withMemory (h.memory.setWord i w)).verify = .ok (.error v) := by
  obtain ⟨s, hOrderly⟩ := Memory.verify_eq_ok_iff.mp hVerify
  obtain ⟨hAligned, hInside, _⟩ := hOrderly.vital_bounds hVital
  obtain ⟨r, hRun, hFound⟩ := (h.memory.setWord i w).audit_finds
  cases r with
  | error v => exact ⟨v, hRun⟩
  | ok found =>
    obtain ⟨t, hOrderly'⟩ := (hFound found).mp rfl
    have hEq := hOrderly.vital_eq hOrderly' (Memory.sameBut_setWord hInside hAligned) hVital
    rw [Memory.word_setWord_self hInside hWord] at hEq
    exact absurd hEq hNew

/-- Three free blocks in one bucket, the last one first. -/
def queued : Heap Cap :=
  let free := fun next previous => [32, next, previous, 0, 0, 0, 0, 32]
  let words := free 0 204 ++ 33 :: List.replicate 7 0 ++ free 140 268 ++ 33 :: List.replicate 7 0 ++
    free 204 0
  let bare := laid words (by decide)
  bare.withMemory (bare.memory.setWord 20 268)

/-- The first block is made to link to itself. -/
theorem verify_damaged_cycle : queued.verify = .ok (.ok ()) ∧ queued.memory.Vital 272 ∧
    ∃ v, (queued.withMemory (queued.memory.setWord 272 268)).verify = .ok (.error v) := by
  have hVerify : queued.verify = .ok (.ok ()) := by decide +kernel
  have hBlock : ⟨268, 32, false⟩ ∈ queued.memory.blocks := by decide +kernel
  have hVital : queued.memory.Vital 272 := .next hBlock rfl
  exact ⟨hVerify, hVital, verify_damaged hVerify hVital (by decide) (by decide +kernel)⟩

end Heap

end TaggedHeap
