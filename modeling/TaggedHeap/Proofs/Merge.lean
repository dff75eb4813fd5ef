import TaggedHeap.Proofs.Shape
import TaggedHeap.Space.Merge

/-! # Merging in a shape

A free block that is in no bucket absorbs its free neighbours and enters the bucket for what it
has become. Only the first three words and the last word of free blocks, and the directory, are
written on the way, so whatever is allocated stays as it is.
-/

namespace TaggedHeap

/-- The block with the one before it, if that is free, and the blocks that remain before. -/
def absorbBefore (pre : List Block) (b : Block) : List Block × Block :=
  match pre.getLast? with
  | none => (pre, b)
  | some p =>
    if p.allocated then (pre, b) else (pre.dropLast, ⟨p.offset, p.size + b.size, false⟩)

/-- The block with the one after it, if that is free, and the blocks that remain after. -/
def absorbAfter (b : Block) (post : List Block) : Block × List Block :=
  match post with
  | [] => (b, [])
  | n :: rest => if n.allocated then (b, n :: rest) else (⟨b.offset, b.size + n.size, false⟩, rest)

/-- The block with its free neighbours. -/
def absorbed (pre : List Block) (b : Block) (post : List Block) : Block :=
  (absorbAfter (absorbBefore pre b).2 post).1

/-- The shape in which a block has absorbed its free neighbours. -/
def Shape.settle (pre : List Block) (b : Block) (post : List Block) (chains : Chains) : Shape where
  blocks := (absorbBefore pre b).1 ++ absorbed pre b post ::
    (absorbAfter (absorbBefore pre b).2 post).2
  chains := (chains.clear (absorbed pre b post).offset
    ((absorbed pre b post).offset + (absorbed pre b post).size)).insert (absorbed pre b post)

theorem last_cases (pre : List Block) : (∀ p ∈ pre.getLast?, p.allocated = true) ∨
    ∃ l p, pre = l ++ [p] ∧ p.allocated = false := by
  rcases pre.eq_nil_or_concat' with rfl | ⟨l, p, rfl⟩
  · exact Or.inl fun p hp => by cases hp
  · cases hp : p.allocated with
    | true =>
      refine Or.inl fun q hq => ?_
      rw [List.getLast?_concat, Option.mem_some_iff] at hq
      rwa [← hq]
    | false => exact Or.inr ⟨l, p, rfl, hp⟩

theorem first_cases (post : List Block) : (∀ n ∈ post.head?, n.allocated = true) ∨
    ∃ n l, post = n :: l ∧ n.allocated = false := by
  cases post with
  | nil => exact Or.inl fun n hn => by cases hn
  | cons n l =>
    cases hn : n.allocated with
    | true =>
      refine Or.inl fun q hq => ?_
      rw [List.head?_cons, Option.mem_some_iff] at hq
      rwa [← hq]
    | false => exact Or.inr ⟨n, l, rfl, hn⟩

theorem absorbBefore_of_allocated {pre : List Block} (h : ∀ p ∈ pre.getLast?, p.allocated = true)
    (b : Block) : absorbBefore pre b = (pre, b) := by
  unfold absorbBefore
  split
  · rfl
  · rename_i p hp
    rw [if_pos (h p hp)]

theorem absorbBefore_concat {l : List Block} {p : Block} (h : p.allocated = false) (b : Block) :
    absorbBefore (l ++ [p]) b = (l, ⟨p.offset, p.size + b.size, false⟩) := by
  simp only [absorbBefore, List.getLast?_concat, h, Bool.false_eq_true, if_false,
    List.dropLast_concat]

theorem absorbAfter_of_allocated {post : List Block} (h : ∀ n ∈ post.head?, n.allocated = true)
    (b : Block) : absorbAfter b post = (b, post) := by
  cases post with
  | nil => rfl
  | cons n l => simp only [absorbAfter, h n rfl, if_true]

theorem absorbAfter_cons {l : List Block} {n : Block} (h : n.allocated = false) (b : Block) :
    absorbAfter b (n :: l) = (⟨b.offset, b.size + n.size, false⟩, l) := by
  simp only [absorbAfter, h, Bool.false_eq_true, if_false]

/-- The bytes that a heap may write without asking what is allocated: the directory, and the first
three words and the last word of the free blocks. -/
def Bookkeeping (bs : List Block) (j : Nat) : Prop :=
  j < 128 ∨ ∃ b ∈ bs, b.allocated = false ∧ b.offset ≤ j ∧ j < b.offset + b.size ∧
    (j < b.offset + 12 ∨ b.offset + b.size - 4 ≤ j)

theorem Linkage.bookkeeping {bs : List Block} {j : Nat} (h : Linkage bs j) : Bookkeeping bs j := by
  rcases h with hSlot | ⟨b, hb, hFree, _, hLow, hHigh⟩
  · exact Or.inl hSlot
  · exact Or.inr ⟨b, hb, hFree, by omega, by omega, Or.inl hHigh⟩

/-- The bytes that are written when some of the blocks become the block `c`: the slots and the links
of what is in the chains, and what is bookkeeping before, as far as it is tags or links of `c`. -/
def Rewritten (bs : List Block) (chains : Chains) (c : Block) (j : Nat) : Prop :=
  chains.Links j ∨ Bookkeeping bs j ∧ (InTags c j ∨ c.offset + 4 ≤ j ∧ j < c.offset + 12)

theorem Rewritten.bookkeeping {bs : List Block} {chains : Chains} {c : Block} {j : Nat}
    (hListed : Shape.Listed ⟨bs, chains⟩) (h : Rewritten bs chains c j) : Bookkeeping bs j := by
  rcases h with hLinks | ⟨hBook, _⟩
  · exact (hListed.linkage hLinks).bookkeeping
  · exact hBook

/-- The footer of the block says that it is allocated, if it is. -/
def Memory.Signed (m : Memory) (b : Block) : Prop :=
  b.allocated = true → (m.tag (b.offset + b.size - 4)).isAllocated = true

instance (m : Memory) (b : Block) : Decidable (m.Signed b) := inferInstanceAs (Decidable (_ → _))

namespace Memory.Shows

variable {m : Memory} {s : Shape} {T : Tagging} {bs pre post : List Block} {chains : Chains}
  {b p q : Block}

theorem signed (h : m.Shows s) (hb : b ∈ s.blocks) : m.Signed b := by
  intro hAllocated
  rw [tag, h.footer b hb, Block.tag_word_isAllocated (h.bounds hb).2.2.2.1, hAllocated]

theorem outside (h : m.Shows ⟨bs, chains⟩ T) (hb : b ∈ bs) {k o : Nat} (ho : o ∈ chains k) :
    o = b.offset ∨ o < b.offset ∨ b.offset + b.size ≤ o := by
  obtain ⟨c, hc, rfl, _⟩ := h.listed.node k o ho
  have hBounds := h.bounds hc
  rcases h.tiling.eq_or_apart hc hb with rfl | hApart
  · exact Or.inl rfl
  · omega

/-- The word before a block is the footer of the one before or that of the prologue. -/
theorem tag_before (h : m.Shows ⟨pre ++ b :: post, chains⟩ T)
    (hSigned : ∀ p ∈ pre.getLast?, m.Signed p) (hFenced : ∀ p ∈ pre.getLast?, p.allocated = true) :
    (m.tag (b.offset - 4)).isAllocated = true := by
  obtain ⟨hPre, _⟩ := h.tiling.cut
  rcases pre.eq_nil_or_concat' with rfl | ⟨l, p, rfl⟩
  · have hOffset : 140 = b.offset := hPre
    rw [tag, ← hOffset, h.prologueFooter]
    rfl
  · have hLast : p ∈ (l ++ [p]).getLast? := by rw [List.getLast?_concat, Option.mem_some_iff]
    rw [← hPre.stop hLast]
    exact hSigned p hLast (hFenced p hLast)

theorem tag_before_free (h : m.Shows ⟨pre ++ [p] ++ b :: post, chains⟩ T)
    (hFree : p.allocated = false) : p.offset + p.size = b.offset ∧
      (m.tag (b.offset - 4)).isAllocated = false ∧ (m.tag (b.offset - 4)).size = p.size := by
  obtain ⟨hPre, _⟩ := h.tiling.cut
  have hMem : p ∈ pre ++ [p] ++ b :: post := List.mem_append_left (b :: post) List.mem_concat_self
  have hTag : m.tag (p.offset + p.size - 4) = m.tag p.offset :=
    congrArg Tag.mk (T.footer (h.tags p hMem) hFree)
  rw [← hPre.stop List.getLast?_concat, hTag, h.isAllocated_tag hMem, h.size_tag hMem]
  exact ⟨rfl, hFree, rfl⟩

theorem predecessor (h : m.Shows ⟨pre ++ [p] ++ b :: post, chains⟩ T) (hFree : p.allocated = false) :
    m.predecessor b.offset = .ok p.offset := by
  have hMem : p ∈ pre ++ [p] ++ b :: post := List.mem_append_left (b :: post) List.mem_concat_self
  have hBounds := h.bounds hMem
  have hLe := h.le_size
  obtain ⟨hOffset, _, hSize⟩ := h.tag_before_free hFree
  rw [predecessor_eq_ok (by omega) (by omega) (by omega), hSize, ← hOffset, Nat.add_sub_cancel]

/-- The word after a block is the header of the one after or the epilogue. -/
theorem tag_after (h : m.Shows ⟨pre ++ b :: post, chains⟩ T)
    (hFenced : ∀ n ∈ post.head?, n.allocated = true) :
    (m.tag (b.offset + b.size)).isAllocated = true := by
  obtain ⟨_, _, _, hPost⟩ := h.tiling.cut
  cases post with
  | nil =>
    have hOffset : b.offset + b.size = m.size - 4 := hPost
    rw [tag, hOffset, h.epilogue]
    rfl
  | cons n post =>
    have hMem : n ∈ pre ++ b :: n :: post :=
      List.mem_append_right pre (List.mem_cons_of_mem b List.mem_cons_self)
    rw [← hPost.1, h.isAllocated_tag hMem]
    exact hFenced n rfl

theorem tag_after_free (h : m.Shows ⟨pre ++ b :: q :: post, chains⟩ T) (hFree : q.allocated = false) :
    q.offset = b.offset + b.size ∧ (m.tag (b.offset + b.size)).isAllocated = false ∧
      (m.tag (b.offset + b.size)).size = q.size := by
  obtain ⟨_, _, _, hPost⟩ := h.tiling.cut
  have hMem : q ∈ pre ++ b :: q :: post :=
    List.mem_append_right pre (List.mem_cons_of_mem b List.mem_cons_self)
  rw [← hPost.1, h.isAllocated_tag hMem, h.size_tag hMem]
  exact ⟨rfl, hFree, rfl⟩

end Memory.Shows

namespace Memory

variable {m n : Memory} {T : Tagging} {pre post left mid right : List Block} {chains : Chains}
  {b c p q : Block} {lo hi : Nat}

/-- A row of free blocks that no bucket leads to any more. Only links have been written. -/
structure Gathered (m n : Memory) (left mid right : List Block) (chains : Chains) (lo hi : Nat)
    (T : Tagging) : Prop where
  agree : m.AgreeOff n chains.Links
  shows : n.Shows ⟨left ++ mid ++ right, chains.clear lo hi⟩ T
  before : Tiling 140 left lo
  row : Tiling lo mid hi
  after : Tiling hi right (m.size - 4)
  free : ∀ d ∈ mid, d.allocated = false

namespace Gathered

theorem single (h : m.Shows ⟨pre ++ b :: post, chains⟩ T) (hFree : b.allocated = false)
    (hNew : ∀ k, b.offset ∉ chains k) :
    m.Gathered m pre [b] post chains b.offset (b.offset + b.size) T := by
  have hMem : b ∈ pre ++ b :: post := List.mem_append_right pre List.mem_cons_self
  obtain ⟨hPre, hSize, hMod, hPost⟩ := h.tiling.cut
  refine ⟨AgreeOff.refl m _, ?_, hPre, Tiling.single hSize hMod, hPost, ?_⟩
  · rwa [← List.append_cons, Chains.clear_eq_self]
    intro k o ho
    rcases h.outside hMem ho with rfl | hOff
    · exact absurd ho (hNew k)
    · exact hOff
  · intro d hd
    rwa [List.mem_singleton.mp hd]

theorem takeBefore (h : m.Gathered n (left ++ [p]) mid right chains lo hi T)
    (hFree : p.allocated = false) (hIn : ∃ k, p.offset ∈ chains k) :
    ∃ n', n.removeFree p.offset = .ok n' ∧
      m.Gathered n' left (p :: mid) right chains p.offset hi T := by
  obtain ⟨hLeft, hSize, hMod, hStop⟩ := h.before.cut
  have hStop : p.offset + p.size = lo := hStop
  subst hStop
  have hRow : left ++ [p] ++ mid ++ right = left ++ p :: mid ++ right := by
    rw [← List.append_cons]
  obtain ⟨hAgree, hShows, _, hMid, hRight, hMidFree⟩ := h
  rw [hRow] at hShows
  have hMem : p ∈ left ++ p :: mid ++ right :=
    List.mem_append_left right (List.mem_append_right left List.mem_cons_self)
  obtain ⟨k, hk⟩ := hIn
  obtain ⟨n', hRun, hAgree', hShows'⟩ := hShows.removeFree hMem (k := k)
    (Chains.mem_clear.mpr ⟨hk, by omega⟩)
  rw [Chains.clear_before chains (by omega) hMid.le] at hShows'
  refine ⟨n', hRun, hAgree.trans (hAgree'.mono fun _ => Chains.Links.of_clear), hShows', hLeft,
    ⟨rfl, hSize, hMod, hMid⟩, hRight, ?_⟩
  intro d hd
  rcases List.mem_cons.mp hd with rfl | hd
  · exact hFree
  · exact hMidFree d hd

theorem takeAfter (h : m.Gathered n left mid (q :: right) chains lo hi T)
    (hFree : q.allocated = false) (hIn : ∃ k, q.offset ∈ chains k) :
    ∃ n', n.removeFree q.offset = .ok n' ∧
      m.Gathered n' left (mid ++ [q]) right chains lo (hi + q.size) T := by
  obtain ⟨hAgree, hShows, hLeft, hMid, ⟨hStart, hSize, hMod, hRight⟩, hMidFree⟩ := h
  subst hStart
  have hRow : left ++ mid ++ q :: right = left ++ (mid ++ [q]) ++ right := by
    rw [List.append_cons, List.append_assoc left]
  rw [hRow] at hShows
  have hMem : q ∈ left ++ (mid ++ [q]) ++ right :=
    List.mem_append_left right (List.mem_append_right left List.mem_concat_self)
  obtain ⟨k, hk⟩ := hIn
  obtain ⟨n', hRun, hAgree', hShows'⟩ := hShows.removeFree hMem (k := k)
    (Chains.mem_clear.mpr ⟨hk, by omega⟩)
  rw [Chains.clear_after chains hMid.le (by omega)] at hShows'
  refine ⟨n', hRun, hAgree.trans (hAgree'.mono fun _ => Chains.Links.of_clear), hShows', hLeft,
    hMid.append (Tiling.single hSize hMod), hRight, ?_⟩
  intro d hd
  rcases List.mem_append.mp hd with hd | hd
  · exact hMidFree d hd
  · rwa [List.mem_singleton.mp hd]

theorem bookkeeping (h : m.Gathered n left mid right chains lo hi T) {j : Nat} (hLow : lo ≤ j)
    (hHigh : j < hi) (hEnds : j < lo + 12 ∨ hi - 4 ≤ j) : Bookkeeping (left ++ mid ++ right) j := by
  obtain ⟨d, hd, hFrom, hTo⟩ := h.row.cover hLow hHigh
  have hBounds := h.row.bounds hd
  exact Or.inr ⟨d, List.mem_append_left right (List.mem_append_right left hd), h.free d hd, hFrom,
    hTo, by omega⟩

/-- Writing the tags of one free block over the row, and putting it into its bucket. -/
theorem join (h : m.Gathered n left mid right chains c.offset (c.offset + c.size) T)
    (hFree : c.allocated = false) (hLarge : 16 ≤ c.size) :
    ∃ p, (do
      let tag ← Tag.free c.size
      let n ← n.writeTags c.offset tag
      let n ← n.insertFree c.offset
      pure (c.offset, n)) = .ok (c.offset, p) ∧
      m.AgreeOff p (Rewritten (left ++ mid ++ right) chains c) ∧
      p.Shows ⟨left ++ c :: right, (chains.clear c.offset (c.offset + c.size)).insert c⟩ T := by
  have hMod := h.row.width_mod
  have hSize := h.shows.size_le
  have hLe := h.shows.le_size
  have hRight := h.after
  rw [← h.agree.size] at hRight
  have hStop := hRight.le
  have hClear : ∀ k, ∀ o ∈ chains.clear c.offset (c.offset + c.size) k,
      o < c.offset ∨ c.offset + c.size ≤ o := fun k o ho => (Chains.mem_clear.mp ho).2
  obtain ⟨n₁, hWrite, hAgree₁, hShows₁⟩ := h.shows.fuse h.before h.row hRight (by omega) hClear
  have hMem : c ∈ left ++ c :: right := List.mem_append_right left List.mem_cons_self
  obtain ⟨p, hInsert, hAgree₂, hShows₂⟩ := hShows₁.insertFree hMem hFree hLarge (by
    intro k ho
    have hOff := hClear k c.offset ho
    omega)
  refine ⟨p, ?_, (h.agree.mono fun _ => Or.inl).trans
    ((hAgree₁.mono ?_).trans (hAgree₂.mono ?_)), hShows₂⟩
  · rw [Block.free_tag hFree (by omega) (by omega), ok_bind, hWrite, ok_bind, hInsert, ok_bind]
    rfl
  · intro j hj
    refine Or.inr ⟨?_, Or.inl hj⟩
    simp only [InTags] at hj
    exact h.bookkeeping (by omega) (by omega) (by omega)
  · intro j hj
    rcases hj.of_insert with hOld | hLink
    · exact Or.inl hOld.of_clear
    · exact Or.inr ⟨h.bookkeeping (by omega) (by omega) (by omega), Or.inr hLink⟩

end Gathered

theorem Shows.coalesce_exact (h : m.Shows ⟨pre ++ b :: post, chains⟩ T) (hFree : b.allocated = false)
    (hNew : ∀ k, b.offset ∉ chains k) (hSigned : ∀ p ∈ pre.getLast?, m.Signed p)
    (hBefore : ∀ p ∈ pre.getLast?, p.allocated = false → ∃ k, p.offset ∈ chains k)
    (hAfter : ∀ n ∈ post.head?, n.allocated = false → ∃ k, n.offset ∈ chains k)
    (hLarge : 16 ≤ (absorbed pre b post).size) :
    ∃ n, m.coalesce b.offset = .ok ((absorbed pre b post).offset, n) ∧
      m.AgreeOff n (Rewritten (pre ++ b :: post) chains (absorbed pre b post)) ∧
      n.Shows (Shape.settle pre b post chains) T := by
  have hMem : b ∈ pre ++ b :: post := List.mem_append_right pre List.mem_cons_self
  have hBounds := h.bounds hMem
  have hLe := h.le_size
  have hSmall := h.size_le
  have hRow := Gathered.single h hFree hNew
  have hSuccessor : m.successor b.offset = .ok (b.offset + b.size) := by
    rw [successor_eq_ok (by omega), h.size_tag hMem]
  rw [Memory.coalesce, tagBefore_eq_ok (by omega) (by omega), ok_bind, hSuccessor, ok_bind,
    tagAt_eq_ok (by omega), ok_bind, h.sizeAt hMem, ok_bind]
  rcases last_cases pre with hFenced | ⟨l, p, rfl, hFreeP⟩ <;>
    rcases first_cases post with hFenced' | ⟨q, r, rfl, hFreeQ⟩
  -- Both neighbours are allocated.
  · simp only [Shape.settle, absorbed, absorbBefore_of_allocated hFenced,
      absorbAfter_of_allocated hFenced'] at hLarge ⊢
    rw [h.tag_before hSigned hFenced, h.tag_after hFenced']
    obtain ⟨n, hRun, hAgree, hShows⟩ := hRow.join hFree hLarge
    rw [← List.append_cons] at hAgree
    exact ⟨n, hRun, hAgree, hShows⟩
  -- The next one is free.
  · obtain ⟨hOffsetQ, hTagQ, hSizeQ⟩ := h.tag_after_free hFreeQ
    have hBoundsQ := h.bounds (b := q)
      (List.mem_append_right pre (List.mem_cons_of_mem b List.mem_cons_self))
    obtain ⟨m₁, hRemove, hRow'⟩ := hRow.takeAfter hFreeQ (hAfter q rfl hFreeQ)
    simp only [Shape.settle, absorbed, absorbBefore_of_allocated hFenced,
      absorbAfter_cons hFreeQ] at hLarge ⊢
    rw [h.tag_before hSigned hFenced, hTagQ, hSizeQ]
    dsimp only
    rw [plus_eq_ok (by omega), ok_bind, ← hOffsetQ, hRemove, ok_bind, pure_bind]
    rw [Nat.add_assoc] at hRow'
    obtain ⟨n, hRun, hAgree, hShows⟩ :=
      hRow'.join (c := ⟨b.offset, b.size + q.size, false⟩) rfl hLarge
    rw [← List.append_assoc, List.append_assoc _ [q], ← List.append_cons] at hAgree
    exact ⟨n, hRun, hAgree, hShows⟩
  -- The one before is free.
  · obtain ⟨hOffsetP, hTagP, _⟩ := h.tag_before_free hFreeP
    have hMemP : p ∈ l ++ [p] ++ b :: post := List.mem_append_left (b :: post) List.mem_concat_self
    have hBoundsP := h.bounds hMemP
    obtain ⟨m₁, hRemove, hRow'⟩ := hRow.takeBefore hFreeP
      (hBefore p (by rw [List.getLast?_concat, Option.mem_some_iff]) hFreeP)
    simp only [Shape.settle, absorbed, absorbBefore_concat hFreeP,
      absorbAfter_of_allocated hFenced'] at hLarge ⊢
    rw [hTagP, h.tag_after hFenced']
    dsimp only
    rw [h.predecessor hFreeP, ok_bind, h.sizeAt hMemP, ok_bind, plus_eq_ok (by omega), ok_bind, hRemove,
      ok_bind, pure_bind, Nat.add_comm b.size p.size]
    rw [← hOffsetP, Nat.add_assoc] at hRow'
    obtain ⟨n, hRun, hAgree, hShows⟩ :=
      hRow'.join (c := ⟨p.offset, p.size + b.size, false⟩) rfl hLarge
    rw [List.append_cons l, ← List.append_cons] at hAgree
    exact ⟨n, hRun, hAgree, hShows⟩
  -- Both are free.
  · obtain ⟨hOffsetP, hTagP, _⟩ := h.tag_before_free hFreeP
    obtain ⟨hOffsetQ, hTagQ, hSizeQ⟩ := h.tag_after_free hFreeQ
    have hMemP : p ∈ l ++ [p] ++ b :: q :: r :=
      List.mem_append_left (b :: q :: r) List.mem_concat_self
    have hBoundsP := h.bounds hMemP
    have hBoundsQ := h.bounds (b := q)
      (List.mem_append_right (l ++ [p]) (List.mem_cons_of_mem b List.mem_cons_self))
    obtain ⟨m₁, hRemove, hRow₁⟩ := hRow.takeBefore hFreeP
      (hBefore p (by rw [List.getLast?_concat, Option.mem_some_iff]) hFreeP)
    obtain ⟨m₂, hRemove', hRow₂⟩ := hRow₁.takeAfter hFreeQ (hAfter q rfl hFreeQ)
    have hSum : b.size + (p.size + q.size) = p.size + b.size + q.size := by omega
    have hStop : b.offset + b.size + q.size = p.offset + (p.size + b.size + q.size) := by omega
    simp only [Shape.settle, absorbed, absorbBefore_concat hFreeP,
      absorbAfter_cons hFreeQ] at hLarge ⊢
    rw [hTagP, hTagQ, hSizeQ]
    dsimp only
    rw [h.predecessor hFreeP, ok_bind, h.sizeAt hMemP, ok_bind, plus_eq_ok (by omega), ok_bind,
      plus_eq_ok (by omega), ok_bind, hRemove, ok_bind, ← hOffsetQ, hRemove', ok_bind, pure_bind,
      hSum]
    rw [hStop] at hRow₂
    obtain ⟨n, hRun, hAgree, hShows⟩ :=
      hRow₂.join (c := ⟨p.offset, p.size + b.size + q.size, false⟩) rfl hLarge
    rw [← List.append_assoc, List.append_assoc _ [q], List.append_cons l, ← List.append_cons _ b]
      at hAgree
    exact ⟨n, hRun, hAgree, hShows⟩

theorem Shows.coalesce (h : m.Shows ⟨pre ++ b :: post, chains⟩ T) (hFree : b.allocated = false)
    (hNew : ∀ k, b.offset ∉ chains k) (hSigned : ∀ p ∈ pre.getLast?, m.Signed p)
    (hBefore : ∀ p ∈ pre.getLast?, p.allocated = false → ∃ k, p.offset ∈ chains k)
    (hAfter : ∀ n ∈ post.head?, n.allocated = false → ∃ k, n.offset ∈ chains k)
    (hLarge : 16 ≤ (absorbed pre b post).size) :
    ∃ n, m.coalesce b.offset = .ok ((absorbed pre b post).offset, n) ∧
      m.AgreeOff n (Bookkeeping (pre ++ b :: post)) ∧ n.Shows (Shape.settle pre b post chains) T := by
  obtain ⟨n, hRun, hAgree, hShows⟩ := h.coalesce_exact hFree hNew hSigned hBefore hAfter hLarge
  exact ⟨n, hRun, hAgree.mono fun _ => Rewritten.bookkeeping h.listed, hShows⟩

end Memory

end TaggedHeap
