import TaggedHeap.Block.Links
import TaggedHeap.Layout

/-!
# Buckets

Bucket `k` holds the free blocks of more than `2 ^ (k - 1)` and at most `2 ^ k` bytes. The head of
its chain is word `k` of the memory; these words form the directory.
-/

namespace TaggedHeap

namespace Bucket

/-- The first bucket that is wide enough for a size. -/
def ofSize? (size : Nat) : Option Nat :=
  (List.range Layout.bucketCount).find? (fun k => size ≤ 1 <<< k)

/-- The first bucket that is wide enough for a size that some bucket has to take. -/
def ofSize (size : Nat) : Checked Nat :=
  match ofSize? size with
  | some bucket => .ok bucket
  | none => .error .noBucket

def slot (bucket : Nat) : Nat := 4 * bucket

theorem ofSize?_eq_some_iff {size bucket : Nat} :
    ofSize? size = some bucket ↔
      bucket < 32 ∧ size ≤ 1 <<< bucket ∧ ∀ k < bucket, 1 <<< k < size := by
  simp only [ofSize?, Layout.bucketCount, List.find?_range_eq_some, decide_eq_true_eq,
    List.mem_range, Bool.not_eq_true', decide_eq_false_iff_not, Nat.not_le]
  grind

end Bucket

namespace Memory

/-- The first block in the chain of a bucket. -/
def head (m : Memory) (bucket : Nat) : Checked (Option Nat) :=
  m.linkAt (Bucket.slot bucket)

/-- Makes a block the first one in the chain of a bucket. -/
def setHead (m : Memory) (bucket : Nat) (link : Option Nat) : Checked Memory :=
  m.writeLink (Bucket.slot bucket) link

/-- Empties the first `count` buckets. -/
def clearHeads (m : Memory) : Nat → Checked Memory
  | 0 => .ok m
  | count + 1 => do (← m.clearHeads count).setHead count none

theorem head_eq_ok {m : Memory} {bucket : Nat} (h : 4 * bucket + 4 ≤ m.size) :
    m.head bucket = .ok (blockNamed (m.word (Bucket.slot bucket))) :=
  linkAt_eq_ok h

theorem setHead_eq_ok {m : Memory} {bucket : Nat} {link : Option Nat}
    (h : 4 * bucket + 4 ≤ m.size) (small : link.getD 0 < 2 ^ 32) :
    m.setHead bucket link = .ok (m.setWord (Bucket.slot bucket) (link.getD 0)) :=
  writeLink_eq_ok h small

theorem clearHeads_eq_ok {m : Memory} {count : Nat} (h : 4 * count ≤ m.size) :
    ∃ n, m.clearHeads count = .ok n ∧ n.size = m.size ∧ (∀ k < count, n.word (4 * k) = 0) ∧
      ∀ i, 4 * count ≤ i → n.word i = m.word i := by
  induction count with
  | zero =>
    refine ⟨m, rfl, rfl, ?_, fun i _ => rfl⟩
    intro k below
    omega
  | succ count ih =>
    obtain ⟨n, run, size, cleared, same⟩ := ih (by omega)
    have inside : 4 * count + 4 ≤ n.size := by omega
    refine ⟨n.setWord (4 * count) 0, ?_, ?_, ?_, ?_⟩
    · rw [clearHeads, run, ok_bind]
      exact setHead_eq_ok inside (by decide)
    · rw [size_setWord, size]
    · intro k below
      rcases Nat.lt_succ_iff_lt_or_eq.1 below with lower | rfl
      · rw [word_setWord_of_disjoint inside (by omega), cleared k lower]
      · exact word_setWord_self inside (by decide)
    · intro i above
      rw [word_setWord_of_disjoint inside (by omega), same i (by omega)]

end Memory

end TaggedHeap
