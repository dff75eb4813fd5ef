import TaggedHeap.Proofs.Chains

/-! # Editing chains

To the rest of the heap a bucket is a list: a block is put in front, or taken out wherever it is.
Both happen to links in the bytes that all 32 buckets share. They are the edits of that one list,
and what they write is bounded by the slot of the bucket, the links of the block, and those of the
blocks beside it in the list.
-/

namespace TaggedHeap.Memory

variable {m n : Memory} {chains : Chains} {k b : Nat}

/-- A block with room for its header and links, apart from those of all blocks in the buckets. -/
structure Fresh (m : Memory) (chains : Chains) (b : Nat) : Prop where
  low : 140 ≤ b
  high : b + 12 ≤ m.size
  apart : ∀ k < 32, ∀ o ∈ chains k, o + 12 ≤ b ∨ b + 12 ≤ o

instance decidableThread (m : Memory) :
    (entry back : Nat) → (l : List Nat) → Decidable (m.Thread entry back l)
  | entry, _, [] => inferInstanceAs (Decidable (m.word entry = 0))
  | entry, back, b :: l =>
    have := decidableThread m (b + 4) b l
    inferInstanceAs (Decidable (b ≠ 0 ∧ m.word entry = b ∧ m.word (b + 8) = back ∧
      m.Thread (b + 4) b l))

theorem threaded_iff :
    (∀ k ∈ List.range 32, m.Thread (4 * k) 0 (chains k) ∧ (chains k).Nodup ∧
      (∀ o ∈ chains k, 140 ≤ o ∧ o + 12 ≤ m.size) ∧ ∀ l ∈ List.range 32,
        (k ≠ l → ∀ o ∈ chains k, o ∉ chains l) ∧
        ∀ o ∈ chains k, ∀ p ∈ chains l, o ≠ p → o + 12 ≤ p ∨ p + 12 ≤ o) ↔ m.Threaded chains := by
  simp only [List.mem_range]
  constructor
  · intro h
    exact ⟨fun k hk => (h k hk).1, fun k hk => (h k hk).2.1,
      fun k hk l hl => ((h k hk).2.2.2 l hl).1, fun k hk => (h k hk).2.2.1,
      fun k hk l hl => ((h k hk).2.2.2 l hl).2⟩
  · intro h k hk
    exact ⟨h.thread k hk, h.nodup k hk, h.inside k hk, fun l hl =>
      ⟨h.disjoint k hk l hl, h.apart k hk l hl⟩⟩

instance : Decidable (m.Threaded chains) := decidable_of_iff _ threaded_iff

namespace Threaded

/-- The block that is the first one before and after: neither its link back nor the slot that leads
to it has another value. -/
theorem first_words (h : m.Threaded chains) (h' : n.Threaded chains) (hk : k < 32) :
    n.word (4 * k) = m.word (4 * k) ∧
      ((chains k).headD 0 ≠ 0 → n.word ((chains k).headD 0 + 8) = m.word ((chains k).headD 0 + 8)) := by
  have hThread := h.thread k hk
  have hThread' := h'.thread k hk
  refine ⟨hThread'.head.trans hThread.head.symm, fun hFirst => ?_⟩
  generalize chains k = l at hThread hThread' hFirst ⊢
  cases l with
  | nil => exact absurd rfl hFirst
  | cons o l => exact hThread'.2.2.1.trans hThread.2.2.1.symm

/-- Taking out a block that has just been put in leaves no trace but the loss of its links. -/
theorem unlink_push (h : m.Threaded chains) (hk : k < 32) (hFresh : m.Fresh chains b)
    (hAgree : m.AgreeOff n (TouchedByPush k b ((chains k).headD 0)))
    (hThreads : n.Threaded (Function.update chains k (b :: chains k))) :
    ∃ p, n.unlink k b = .ok p ∧ p.Threaded chains ∧ p.word (b + 4) = 0 ∧ p.word (b + 8) = 0 ∧
      m.AgreeOff p fun j => b + 4 ≤ j ∧ j < b + 12 := by
  obtain ⟨hLow, hHigh, _⟩ := hFresh
  have hSplit : Function.update chains k (b :: chains k) k = [] ++ b :: chains k :=
    Function.update_self k (b :: chains k) chains
  obtain ⟨p, hRun, hAgree', hNext, hPrev, hThreads'⟩ := hThreads.unlink hk hSplit
  rw [List.nil_append, Function.update_idem, Function.update_eq_self] at hThreads'
  refine ⟨p, hRun, hThreads', hNext, hPrev, ?_⟩
  obtain ⟨hSlot, hBack⟩ := h.first_words hThreads' hk
  have hFirst := h.within hk (headD_cases (chains k))
  generalize (chains k).headD 0 = first at hAgree hAgree' hBack hFirst
  have hBoth : m.AgreeOff p (TouchedByPush k b first) := by
    refine hAgree.trans (hAgree'.mono fun j hj => ?_)
    simp only [TouchedByUnlink, TouchedByPush, List.getLastD_nil] at hj ⊢
    omega
  -- Both edits write the slot and the link back of the first block, the second with the old values.
  have hSlotKept : m.AgreeOff p fun j => (b + 4 ≤ j ∧ j < b + 12) ∨
      first ≠ 0 ∧ first + 8 ≤ j ∧ j < first + 12 := by
    refine AgreeOff.drop (hBoth.mono fun j hj => ?_) (by omega) hSlot
    simp only [TouchedByPush] at hj
    omega
  rcases hFirst with rfl | ⟨hFirstLow, hFirstHigh⟩
  · exact hSlotKept.mono fun j hj => hj.resolve_right fun hNone => hNone.1 rfl
  · refine AgreeOff.drop (hSlotKept.mono fun j hj => ?_) (by omega) (hBack (by omega))
    exact hj.imp_right fun hIn => ⟨hIn.2.1, by omega⟩

end Threaded

/-- In a memory that all links fit, putting a block in front of a bucket and taking one out are the
edits of the list of that bucket: no other list, and no byte but the links and the slot on the way,
is changed, and the first is undone by the second. -/
theorem chains_edited (h : m.Threaded chains) (hSmall : m.size ≤ 2 ^ 32) (hk : k < 32) :
    (∀ b, m.Fresh chains b → ∃ n, m.push k b = .ok n ∧
      n.Threaded (Function.update chains k (b :: chains k)) ∧
      m.AgreeOff n (TouchedByPush k b ((chains k).headD 0)) ∧
      ∃ p, n.unlink k b = .ok p ∧ p.Threaded chains ∧ p.word (b + 4) = 0 ∧ p.word (b + 8) = 0 ∧
        m.AgreeOff p fun j => b + 4 ≤ j ∧ j < b + 12) ∧
    ∀ l₁ b l₂, chains k = l₁ ++ b :: l₂ → ∃ n, m.unlink k b = .ok n ∧
      n.Threaded (Function.update chains k (l₁ ++ l₂)) ∧ n.word (b + 4) = 0 ∧ n.word (b + 8) = 0 ∧
      m.AgreeOff n (TouchedByUnlink k b (l₁.getLastD 0) (l₂.headD 0)) := by
  constructor
  · intro b hFresh
    obtain ⟨n, hRun, hAgree, hThreads⟩ := h.push hk hFresh.low hFresh.high hSmall hFresh.apart
    exact ⟨n, hRun, hThreads, hAgree, h.unlink_push hk hFresh hAgree hThreads⟩
  · intro l₁ b l₂ hSplit
    obtain ⟨n, hRun, hAgree, hNext, hPrev, hThreads⟩ := h.unlink hk hSplit
    exact ⟨n, hRun, hThreads, hNext, hPrev, hAgree⟩

/-- Two buckets whose blocks lie among each other. -/
def woven : Chains
  | 5 => [164, 140, 176]
  | 7 => [152]
  | _ => []

/-- A memory with these buckets, in which a block is no more than its header and links. -/
def weave : Memory :=
  [(20, 164), (168, 140), (144, 176), (148, 164), (184, 140), (28, 152)].foldl
    (fun m (i, w) => m.setWord i w) ⟨⟨(List.replicate 200 0).toArray⟩, by
      rw [ByteArray.size, List.size_toArray, List.length_replicate]
      decide⟩

theorem chains_edited_woven : weave.Threaded woven ∧ weave.Fresh woven 188 ∧
    (∃ n, weave.push 5 188 = .ok n ∧
      n.Threaded (Function.update woven 5 [188, 164, 140, 176])) ∧
    ∃ n, weave.unlink 5 140 = .ok n ∧ n.Threaded (Function.update woven 5 [164, 176]) := by
  have hThreads : weave.Threaded woven := by decide +kernel
  have hFresh : weave.Fresh woven 188 := by constructor <;> decide +kernel
  obtain ⟨hPush, hUnlink⟩ := chains_edited hThreads (by decide +kernel) (k := 5) (by decide)
  obtain ⟨n, hRun, hEdited, _⟩ := hPush 188 hFresh
  obtain ⟨n', hRun', hEdited', _⟩ := hUnlink [164] 140 [176] rfl
  exact ⟨hThreads, hFresh, ⟨n, hRun, hEdited⟩, n', hRun', hEdited'⟩

end TaggedHeap.Memory
