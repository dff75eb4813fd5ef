import Mathlib.Algebra.Order.Field.Basic
import Mathlib.Order.Bounds.Basic
import Mathlib.Data.Rat.Cast.Order
import Mathlib.Data.List.Infix
import TaggedHeap.Proofs.Course
import TaggedHeap.Proofs.Rounding

/-! # The demand of a trace

At any point of a trace some ids are live, each with a size that was last asked for. The sum of these
sizes is what the replay keeps count of; its peak is the greatest such sum, and the arena is larger
than that by the bare layout at least.
-/

namespace TaggedHeap

namespace Trace

/-- The size that an operation asks for. -/
def Op.size : Op → Nat
  | .allocate _ size | .reallocate _ size => size
  | .free _ => 0

/-- The size that was last asked for, id by id. -/
def lastSize (ops : List (Nat × Op)) : Nat → Nat :=
  ops.foldl (fun size entry => Function.update size entry.2.id entry.2.size) fun _ => 0

/-- What the ids that are live after some operations ask for together. -/
def demand (numIds : Nat) (ops : List (Nat × Op)) : Nat :=
  ∑ id ∈ Finset.range numIds with liveAfter (fun _ => false) ops id = true, lastSize ops id

/-- What there is a demand for at one time or another. -/
def demands (numIds : Nat) (ops : List (Nat × Op)) : Set Nat :=
  {n | ∃ pre, pre <+: ops ∧ demand numIds pre = n}

section Demands

variable {numIds : Nat} {ops : List (Nat × Op)} {entry : Nat × Op}

theorem lastSize_concat (ops : List (Nat × Op)) (entry : Nat × Op) : lastSize (ops ++ [entry]) =
    Function.update (lastSize ops) entry.2.id entry.2.size :=
  List.foldl_concat ..

@[simp] theorem demand_nil : demand numIds [] = 0 := by
  simp [demand, liveAfter]

theorem demands_nil : demands numIds [] = {0} := by
  ext n
  simp [demands, eq_comm]

theorem demands_concat :
    demands numIds (ops ++ [entry]) = insert (demand numIds (ops ++ [entry])) (demands numIds ops) := by
  ext n
  simp [demands, List.prefix_concat_iff, or_and_right, exists_or, eq_comm]

end Demands

namespace Progress

variable {S : Type} [Supply S] {old : Memory} {others : List Block} {numIds : Nat}
  {p q r : Progress S} {t u : Shape} {op : Op} {ops : List (Nat × Op)} {id : Nat} {l : Live}

theorem Does.size_eq (hDoes : p.Does op q) (hOld : q.live[id]? = some l) :
    op.id = id ∧ l.size = op.size ∨ op.id ≠ id ∧ p.live[id]? = some l := by
  cases hDoes with
  | allocate _ _ | move _ _ _ =>
    rw [getElem?_insert] at hOld
    split at hOld
    · rename_i hId
      cases hOld
      exact Or.inl ⟨hId, rfl⟩
    · rename_i hNe
      exact Or.inr ⟨hNe, hOld⟩
  | giveUp _ _ | free _ _ => exact Or.inr (of_getElem?_erase hOld)

theorem Does.peak_eq (hDoes : p.Does op q) : q.peak = p.peak := by
  cases hDoes <;> rfl

/-- The table of a replay and its peak are those of the operations. -/
structure Tallied (numIds : Nat) (ops : List (Nat × Op)) (p : Progress S) : Prop where
  sizes : ∀ id l, p.live[id]? = some l → l.size = lastSize ops id
  peak : IsGreatest (demands numIds ops) p.peak
  room : p.peak + 144 ≤ p.heap.currentSize

omit [Supply S] in
theorem Sound.requested_eq (hSound : p.Sound old others numIds t)
    (hLive : p.isLive = liveAfter (fun _ => false) ops)
    (hSizes : ∀ id l, p.live[id]? = some l → l.size = lastSize ops id) :
    p.requested = demand numIds ops := by
  rw [hSound.requested, total, demand, Finset.sum_filter]
  refine Finset.sum_congr rfl fun id _ => ?_
  rw [← hLive]
  cases hOld : p.live[id]? with
  | none => rw [isLive_of_none hOld, share, hOld]; rfl
  | some l => rw [isLive_of_some hOld, share_of_some hOld, hSizes id l hOld]; rfl

namespace Course

variable {h : Heap S}

theorem tallied (hCourse : Course old others numIds { heap := h } ops q t) :
    q.Tallied numIds ops := by
  induction hCourse with
  | start hSound =>
    refine ⟨fun id l hOld => ?_, ?_, ?_⟩
    · cases Std.TreeMap.getElem?_emptyc.symm.trans hOld
    · rw [demands_nil]
      exact isGreatest_singleton
    · exact (Nat.zero_add 144).trans_le hSound.atRest.shows.le_size
  | @step ops q r t u line op hCourse hId hDoes hSound hLive ih =>
    have hSizes : ∀ id l, r.live[id]? = some l → l.size = lastSize (ops ++ [(line, op)]) id := by
      intro id l hOld
      rw [lastSize_concat]
      rcases hDoes.size_eq hOld with ⟨rfl, hSize⟩ | ⟨hNe, hOld⟩
      · rw [Function.update_self, hSize]
      · rw [Function.update_of_ne hNe.symm, ih.sizes id l hOld]
    have hRequested : r.requested = demand numIds (ops ++ [(line, op)]) :=
      hSound.requested_eq (hCourse.step hId hDoes hSound hLive).isLive_of_fresh hSizes
    have hTotal : r.requested + 144 ≤ r.heap.currentSize :=
      hSound.requested.symm ▸ hSound.ledger.total_le hSound.atRest.shows numIds
    have hGrown : q.heap.currentSize ≤ r.heap.currentSize := (hDoes.acts hCourse.sound).size_le
    have hRoom := ih.room
    refine ⟨hSizes, ?_, ?_⟩
    · rw [demands_concat, ← hRequested, notePeak, hDoes.peak_eq, max_comm]
      exact ih.peak.insert _
    · change max r.peak r.requested + 144 ≤ r.heap.currentSize
      rw [hDoes.peak_eq]
      omega

end Course

end Progress

/-- What the figures of a completed replay tell: the operations, the size of the arena afterwards,
and the greatest demand, which the arena has room for besides the bare layout. -/
structure Stats.Measures {S : Type} (stats : Stats) (trace : Trace) (h' : Heap S) : Prop where
  ops : stats.ops = trace.ops.length
  heapSize : stats.heapSize = h'.currentSize
  peak : IsGreatest (demands trace.numIds trace.ops) stats.peakRequested
  room : stats.peakRequested + 144 ≤ stats.heapSize
  /-- Up to here numbers and floating-point numbers are the same. -/
  exact : stats.heapSize ≤ 2 ^ 53
  utilization : 0 < stats.heapSize ∧ (stats.peakRequested : ℚ) / stats.heapSize < 1
  /-- The floating-point quotient is off by a part in `2 ^ 53` at most, and below 1 as well. -/
  rounded : ∃ u, Rounding.value stats.utilization = some u ∧ u < 1 ∧
    |u - stats.peakRequested / stats.heapSize| ≤ stats.peakRequested / stats.heapSize / 2 ^ 53

/-- At each point of the operations the running total is the demand, and so no size that might be
taken off it exceeds it. -/
def Tallies {S : Type} [Supply S] (trace : Trace) (h : Heap S) : Prop :=
  ∀ pre, pre <+: trace.ops → ∃ q : Progress S,
    Progress.run h.config.checkOnReplay { heap := h } pre = .ok (.ok (), q) ∧
      q.requested = demand trace.numIds pre ∧
      ∀ id < trace.numIds, ∀ l, q.live[id]? = some l → l.size ≤ q.requested

end Trace

namespace Session

variable {S : Type} [Supply S] [Supply.Limited S] {supply : S} {config : Config} {h : Heap S}
  {s : Session S}

theorem Steady.measures {t : Shape} {trace : Trace} {h' : Heap S} {stats : Trace.Stats}
    (hSteady : s.Steady t) (hIds : ∀ entry ∈ trace.ops, entry.2.id < trace.numIds)
    (hReplay : trace.replay s.heap = .ok (.ok stats, h')) :
    stats.Measures trace h' ∧ trace.Tallies s.heap := by
  obtain ⟨q, hRun, rfl, rfl⟩ := Trace.run_of_replay hReplay
  constructor
  · obtain ⟨u, hCourse⟩ := Trace.Progress.exists_course (hSteady.starts trace.numIds) hIds hRun
    obtain ⟨_, hPeak, hRoom⟩ := hCourse.tallied
    have hPositive : 0 < q.heap.currentSize := by omega
    have hSmall : q.heap.currentSize ≤ 2 ^ 31 := hCourse.sound.atRest.shows.size_le
    have hLess : q.peak < q.heap.currentSize := by omega
    have hBits : q.heap.currentSize < 2 ^ 53 := hSmall.trans_lt (by decide)
    obtain ⟨u, hValue, hNear⟩ := Rounding.exists_value_quotient (hLess.trans hBits) hPositive hBits
    refine ⟨rfl, rfl, hPeak, hRoom, hBits.le, ⟨hPositive, ?_⟩, u, hValue,
      Rounding.lt_one_of_near hLess hBits hNear, hNear⟩
    rw [div_lt_one (by exact_mod_cast hPositive)]
    exact_mod_cast hLess
  · rintro pre ⟨post, hSplit⟩
    rw [← hSplit] at hRun hIds
    obtain ⟨r, hFirst, _⟩ := Trace.Progress.run_append.mp hRun
    obtain ⟨u, hCourse⟩ := Trace.Progress.exists_course (hSteady.starts trace.numIds)
      (fun entry hEntry => hIds entry (List.mem_append_left _ hEntry)) hFirst
    refine ⟨r, hFirst, hCourse.sound.requested_eq hCourse.isLive_of_fresh hCourse.tallied.sizes, ?_⟩
    intro id hId l hOld
    exact (Trace.share_of_some hOld).symm.trans_le (hCourse.sound.share_le hId)

/-- A replay on a heap in use comes to an answer, so no total on the way is too small for what is
taken off it; and if all operations are done, its peak is the greatest demand. -/
theorem reaches_demand {text : String} {trace : Trace} (hParse : Trace.parse text = .ok trace)
    (hValid : config.validate = .ok ()) (hChunk : 32 ≤ config.chunkSize)
    (hWord : config.chunkSize < 2 ^ 64)
    (hBuild : Heap.ofArena (.fresh supply) config = .ok (.ok h)) (hReach : Reaches ⟨h, []⟩ s) :
    ∃ answer h', trace.replay s.heap = .ok (answer, h') ∧
      ∀ stats, answer = .ok stats → stats.Measures trace h' ∧ trace.Tallies s.heap := by
  obtain ⟨t, hStart⟩ := steady_of_built ⟨hValid, hChunk, hWord⟩ hBuild
  obtain ⟨u, hSteady⟩ := hStart.reaches hReach
  have hIds := Trace.parse_id_lt hParse
  obtain ⟨answer, h', hReplay, _⟩ := hSteady.replay hIds
  refine ⟨answer, h', hReplay, ?_⟩
  rintro stats rfl
  exact hSteady.measures hIds hReplay

theorem reaches_demand_again : ∃ (s : Session Cap) (trace : Trace) (stats : Trace.Stats)
    (h' : Heap Cap), s.live.map Grant.pointer = [144] ∧
      Trace.parse "0\n1\n3\n1\na 0 8\na 0 4\nr 0 0" = .ok trace ∧
      trace.replay s.heap = .ok (.ok stats, h') ∧ stats.peakRequested = 8 ∧
      stats.Measures trace h' ∧ trace.Tallies s.heap := by
  obtain ⟨h, s, trace, stats, h₁, hBuild, hReach, hParse, hReplay, hCheck⟩ := exists_replay
    (⟨1000⟩ : Cap) { chunkSize := 136, checkOnReplay := false } [.allocate 8]
    "0\n1\n3\n1\na 0 8\na 0 4\nr 0 0"
    (fun s stats _ => s.live.map Grant.pointer == [144] && stats.peakRequested == 8)
    (by decide +kernel)
  rw [Bool.and_eq_true, beq_iff_eq, beq_iff_eq] at hCheck
  obtain ⟨answer, h', hReplay', hMeasures⟩ :=
    reaches_demand hParse rfl (by decide) (by decide) hBuild hReach
  rw [hReplay] at hReplay'
  cases hReplay'
  exact ⟨s, trace, stats, h₁, hCheck.1, hParse, hReplay, hCheck.2, hMeasures stats rfl⟩

end Session

end TaggedHeap
