import TaggedHeap.Proofs.Place

/-! # What stays allocated

Between two operations a memory shows a settled shape. How an operation moves from one such shape
to the next is said here by its allocated blocks only: one is gained, one is lost, or none, and all
others are where they were and hold what they held.
-/

namespace TaggedHeap

/-- The bytes that belong to no allocated block. -/
def Unused (bs : List Block) (j : Nat) : Prop :=
  ∀ b ∈ bs, b.allocated = true → j < b.offset ∨ b.offset + b.size ≤ j

namespace Memory

structure AtRest (m : Memory) (s : Shape) (T : Tagging := .exact) : Prop where
  shows : m.Shows s T
  settled : s.Settled

/-- The other memory has the same bytes in a block. -/
def Keeps (m n : Memory) (b : Block) : Prop :=
  ∀ j, b.offset ≤ j → j < b.offset + b.size → n.byte j = m.byte j

/-- The same blocks are allocated, and hold what they held. -/
structure Carries (m : Memory) (s : Shape) (n : Memory) (t : Shape) (T : Tagging := .exact) :
    Prop where
  atRest : n.AtRest t T
  mem_iff : ∀ c, c.allocated = true → (c ∈ t.blocks ↔ c ∈ s.blocks)
  keeps : ∀ c ∈ s.blocks, c.allocated = true → m.Keeps n c

/-- One more block is allocated. -/
structure Gains (m : Memory) (s : Shape) (b : Block) (n : Memory) (t : Shape)
    (T : Tagging := .exact) : Prop where
  atRest : n.AtRest t T
  allocated : b.allocated = true
  fresh : ∀ c ∈ s.blocks, c.allocated = true → c.offset ≠ b.offset
  mem_iff : ∀ c, c.allocated = true → (c ∈ t.blocks ↔ c = b ∨ c ∈ s.blocks)
  keeps : ∀ c ∈ s.blocks, c.allocated = true → m.Keeps n c

/-- One block is not allocated any more. -/
structure Loses (m : Memory) (s : Shape) (b : Block) (n : Memory) (t : Shape)
    (T : Tagging := .exact) : Prop where
  atRest : n.AtRest t T
  mem_iff : ∀ c, c.allocated = true → (c ∈ t.blocks ↔ c ≠ b ∧ c ∈ s.blocks)
  keeps : ∀ c ∈ s.blocks, c.allocated = true → c ≠ b → m.Keeps n c

/-- A block has given way to a new one that starts with what its payload held. -/
structure Moves (m : Memory) (s : Shape) (b c : Block) (copied : Nat) (n : Memory) (t : Shape) :
    Prop where
  atRest : n.AtRest t
  allocated : c.allocated = true
  fresh : ∀ d ∈ s.blocks, d.allocated = true → d.offset ≠ c.offset
  mem_iff : ∀ d, d.allocated = true → (d ∈ t.blocks ↔ d = c ∨ d ≠ b ∧ d ∈ s.blocks)
  keeps : ∀ d ∈ s.blocks, d.allocated = true → d ≠ b → m.Keeps n d
  copy : ∀ j < copied, n.byte (c.offset + 4 + j) = m.byte (b.offset + 4 + j)

variable {m n p : Memory} {s t u : Shape} {T : Tagging} {bs : List Block} {chains : Chains}
  {b c : Block}

theorem Keeps.trans (h₁ : m.Keeps n b) (h₂ : n.Keeps p b) : m.Keeps p b :=
  fun j hLow hHigh => (h₂ j hLow hHigh).trans (h₁ j hLow hHigh)

theorem AgreeOff.keeps (h : m.AgreeOff n (Unused bs)) (hb : b ∈ bs) (hAllocated : b.allocated = true) :
    m.Keeps n b := by
  intro j hLow hHigh
  apply h.byte j
  intro hUnused
  have hOff := hUnused b hb hAllocated
  omega

theorem Shows.unused_of_bookkeeping {j : Nat} (h : m.Shows ⟨bs, chains⟩ T) (hj : Bookkeeping bs j) :
    Unused bs j := by
  intro b hb hAllocated
  have hBounds := h.bounds hb
  rcases hj with hSlot | ⟨c, hc, hFree, hInside⟩
  · exact Or.inl (by omega)
  · rcases h.tiling.eq_or_apart hb hc with rfl | hApart
    · rw [hAllocated] at hFree
      cases hFree
    · omega

theorem Carries.refl (h : m.AtRest s T) : m.Carries s m s T :=
  ⟨h, fun _ _ => Iff.rfl, fun _ _ _ _ _ _ => rfl⟩

theorem Carries.gains (h₁ : m.Carries s n t T) (h₂ : n.Gains t b p u T) : m.Gains s b p u T where
  atRest := h₂.atRest
  allocated := h₂.allocated
  fresh c hc hAllocated := h₂.fresh c ((h₁.mem_iff c hAllocated).mpr hc) hAllocated
  mem_iff c hAllocated := (h₂.mem_iff c hAllocated).trans (or_congr_right (h₁.mem_iff c hAllocated))
  keeps c hc hAllocated := (h₁.keeps c hc hAllocated).trans
    (h₂.keeps c ((h₁.mem_iff c hAllocated).mpr hc) hAllocated)

/-- A block that starts with what a payload holds has been gained, and then the payload lost. -/
theorem Gains.moves {copied : Nat} (h₁ : m.Gains s c n t) (h₂ : n.Loses t b p u) (hb : b ∈ s.blocks)
    (hAllocated : b.allocated = true) (hTarget : copied + 8 ≤ c.size)
    (hCopy : ∀ j < copied, n.byte (c.offset + 4 + j) = m.byte (b.offset + 4 + j)) :
    m.Moves s b c copied p u := by
  have hNe : c ≠ b := fun hEq => h₁.fresh b hb hAllocated (congrArg Block.offset hEq.symm)
  have hNew : c ∈ t.blocks := (h₁.mem_iff c h₁.allocated).mpr (Or.inl rfl)
  refine ⟨h₂.atRest, h₁.allocated, h₁.fresh, ?_, ?_, ?_⟩
  · intro d hd
    rw [h₂.mem_iff d hd, h₁.mem_iff d hd, and_or_left]
    exact or_congr_left ⟨And.right, fun hEq => ⟨hEq ▸ hNe, hEq⟩⟩
  · intro d hd hAllocatedD hNot
    have hOld : d ∈ t.blocks := (h₁.mem_iff d hAllocatedD).mpr (Or.inr hd)
    exact (h₁.keeps d hd hAllocatedD).trans (h₂.keeps d hOld hAllocatedD hNot)
  · intro j hj
    rw [h₂.keeps c hNew h₁.allocated hNe _ (by omega) (by omega), hCopy j hj]

namespace AtRest

theorem signed (h : m.AtRest s) (hb : b ∈ s.blocks) : m.Signed b := h.shows.signed hb

/-- Between the sentinels there is room for a block, or none at all. -/
theorem size_cases (h : m.AtRest s T) : m.size = 144 ∨ 176 ≤ m.size := by
  obtain ⟨bs, chains⟩ := s
  cases bs with
  | nil =>
    have hEmpty : 140 = m.size - 4 := h.shows.tiling
    exact Or.inl (by omega)
  | cons b bs =>
    have hBounds := h.shows.bounds List.mem_cons_self
    have hLarge := h.settled.large b List.mem_cons_self
    exact Or.inr (by omega)

theorem place {size : Nat} (h : m.AtRest s T) (hb : b ∈ s.blocks) (hFree : b.allocated = false)
    (hFits : size ≤ b.size) (hMin : 32 ≤ size) (hMod : size % 8 = 0) :
    ∃ n t, m.place b.offset size = .ok n ∧ n.size = m.size ∧ m.Gains s (b.taken size) n t T := by
  obtain ⟨bs, chains⟩ := s
  obtain ⟨pre, post, rfl⟩ := List.append_of_mem hb
  obtain ⟨n, hRun, hAgree, hShows, hSettled⟩ :=
    h.shows.place h.settled hFree hFits hMin hMod
  refine ⟨n, _, hRun, hAgree.size, ⟨hShows, hSettled⟩, rfl, ?_, ?_, ?_⟩
  · rintro c hc hAllocated hOffset
    rw [h.shows.tiling.eq_of_offset hc hb hOffset, hFree] at hAllocated
    cases hAllocated
  · exact fun c hAllocated => mem_carve_iff hFree hAllocated
  · refine fun c hc hAllocated => (hAgree.mono ?_).keeps hc hAllocated
    rintro j (hLink | hInside)
    · exact h.shows.unused_of_bookkeeping hLink.bookkeeping
    · intro d hd hAllocated'
      rcases h.shows.tiling.eq_or_apart hb hd with rfl | hApart
      · rw [hFree] at hAllocated'
        cases hAllocated'
      · omega

theorem free (h : m.AtRest s T) (hb : b ∈ s.blocks) (hAllocated : b.allocated = true)
    (hSigned : ∀ a ∈ s.blocks, a.offset + a.size = b.offset → m.Signed a) :
    ∃ n t, m.free b.offset = .ok n ∧ n.size = m.size ∧ m.Loses s b n t T := by
  obtain ⟨bs, chains⟩ := s
  obtain ⟨pre, post, rfl⟩ := List.append_of_mem hb
  obtain ⟨n₁, _, _, hShows₁⟩ := h.shows.retag hAllocated false
  obtain ⟨n, hRun, hAgree, hShows, hSettled⟩ := h.shows.free h.settled hAllocated fun p hp =>
    hSigned p (List.mem_append_left (b :: post) (List.mem_of_getLast? hp))
      (h.shows.tiling.cut.1.stop hp)
  refine ⟨n, _, hRun, hAgree.size, ⟨hShows, hSettled⟩, ?_, ?_⟩
  · intro c hc
    exact (mem_settle_iff rfl hc).trans h.shows.tiling.mem_others.symm
  · intro c hc hAllocated' hNe
    refine (hAgree.mono fun j hj => hShows₁.unused_of_bookkeeping hj).keeps ?_ hAllocated'
    rcases h.shows.tiling.mem_others.mp ⟨hNe, hc⟩ with hPre | hPost
    · exact List.mem_append_left _ hPre
    · exact List.mem_append_right pre (List.mem_cons_of_mem _ hPost)

end AtRest

end Memory

end TaggedHeap
