import Mathlib.Algebra.BigOperators.Group.Finset.Piecewise
import TaggedHeap.Proofs.Course
import TaggedHeap.Proofs.Discharge
import TaggedHeap.Proofs.Metering

/-! # What a trace leaks

A payload of a trace stays allocated if its id is live at the end, or if its id was allocated anew
while it was live: then nobody knows the payload any more. A replay leaves a block for each of these
and no others.
-/

namespace TaggedHeap

namespace Trace

/-- Whether an operation allocates for an id that is live, whose payload is then out of reach. -/
def Op.leaks (live : Nat → Bool) : Op → Bool
  | .allocate id _ => live id
  | .reallocate _ _ | .free _ => false

/-- How many payloads get out of reach, by the ids that are live before. -/
def leaks (live : Nat → Bool) : List (Nat × Op) → Nat
  | [] => 0
  | (_, op) :: ops => (op.leaks live).toNat + leaks (op.after live) ops

/-- The ids that are live. -/
def liveIds (numIds : Nat) (live : Nat → Bool) : Finset Nat :=
  {id ∈ Finset.range numIds | live id = true}

section Counts

variable {numIds id line : Nat} {live live' : Nat → Bool} {op : Op} {ops : List (Nat × Op)}

theorem leaks_concat : leaks live (ops ++ [(line, op)]) =
    leaks live ops + (op.leaks (liveAfter live ops)).toNat := by
  induction ops generalizing live with
  | nil => simp [leaks, liveAfter]
  | cons entry ops ih =>
    simp only [List.cons_append, leaks, ih, Nat.add_assoc]
    rfl

theorem card_liveIds : (liveIds numIds live).card = ∑ id ∈ Finset.range numIds, (live id).toNat := by
  rw [liveIds, Finset.card_filter]
  refine Finset.sum_congr rfl fun id _ => ?_
  cases live id <;> rfl

theorem card_liveIds_change (hId : id < numIds) (hSame : ∀ j, id ≠ j → live' j = live j) :
    (liveIds numIds live').card + (live id).toNat = (liveIds numIds live).card + (live' id).toNat := by
  rw [card_liveIds, card_liveIds]
  exact sum_change hId fun j hNe => congrArg Bool.toNat (hSame j hNe)

theorem card_liveIds_eq_zero : (liveIds numIds live).card = 0 ↔ ∀ id < numIds, live id = false := by
  simp [liveIds, Finset.filter_eq_empty_iff]

end Counts

namespace Progress

variable {S : Type} [Supply S] {old : Memory} {others : List Block} {numIds : Nat}
  {p q : Progress S} {t u : Shape} {op : Op} {ops : List (Nat × Op)}

omit [Supply S] in
theorem held_length_of_loses {id requested peak : Nat} {l : Live} {b : Block} {h : Heap S}
    (hRest : p.heap.memory.AtRest t) (hOld : p.live[id]? = some l) (hb : b ∈ t.blocks)
    (hAllocated : b.allocated = true) (hLoses : p.heap.memory.Loses t b h.memory u) :
    h.account.held.length + (p.isLive id).toNat = p.heap.account.held.length +
      (isLive ⟨h, p.live.erase id, requested, peak⟩ id).toNat := by
  have hDead : isLive ⟨h, p.live.erase id, requested, peak⟩ id = false :=
    isLive_of_none (getElem?_erase.trans (if_pos rfl))
  rw [hDead, isLive_of_some hOld, Heap.account_held hRest, Heap.account_held hLoses.atRest,
    (hLoses.held_perm hRest hb hAllocated).length_eq]
  rfl

/-- An operation leaves a block more for an id that it makes live and for a payload that it leaks,
and a block less for an id that was live. -/
theorem Does.held_length (hDoes : p.Does op q) (hSound : p.Sound old others numIds t) :
    q.heap.account.held.length + (p.isLive op.id).toNat =
      p.heap.account.held.length + (q.isLive op.id).toNat + (op.leaks p.isLive).toNat := by
  have hRest := hSound.atRest
  have hConfig := hSound.config
  cases hDoes with
  | @allocate id size pointer requested g h hRun hFill =>
    obtain ⟨hSame, c, u, hGains⟩ := Heap.gains_of_filled hRest hConfig hRun hFill
    have hLength := (hGains.held_perm hRest).length_eq
    have hLive : isLive ⟨h, p.live.insert id ⟨pointer, size⟩, requested, p.peak⟩ id = true :=
      isLive_of_some (getElem?_insert.trans (if_pos rfl))
    dsimp only [Op.id, Op.leaks]
    rw [hSame, hLive, Heap.account_held hRest, Heap.account_held hGains.atRest, hLength,
      List.length_cons, Bool.toNat_true]
  | @move id size pointer requested l g h hOld hRun hFill =>
    obtain ⟨hSame, b, c, copied, u, hb, hAllocated, hMoves⟩ :=
      Heap.moves_of_filled hRest hConfig (hSound.takes hOld) hRun hFill
    have hLength := (hMoves.held_perm hRest hb hAllocated).length_eq
    have hLive : isLive ⟨h, p.live.insert id ⟨pointer, size⟩, requested, p.peak⟩ id = true :=
      isLive_of_some (getElem?_insert.trans (if_pos rfl))
    dsimp only [Op.id, Op.leaks]
    rw [hSame, hLive, isLive_of_some hOld, Heap.account_held hRest, Heap.account_held hMoves.atRest]
    simpa using hLength
  | @giveUp id size requested l h hOld hRun =>
    obtain ⟨b, u, hb, hAllocated, hLoses⟩ :=
      Heap.loses_of_givenUp hRest hConfig (hSound.takes hOld) hRun
    exact held_length_of_loses hRest hOld hb hAllocated hLoses
  | @free id requested l h hOld hRun =>
    obtain ⟨b, u, hb, hAllocated, hLoses⟩ := Heap.loses_of_released hRest (hSound.takes hOld _ rfl) hRun
    exact held_length_of_loses hRest hOld hb hAllocated hLoses

/-- At each stage the blocks in use are those of before, one for each live id, and one for each
payload that has been leaked. -/
theorem Course.held_length (hCourse : Course old others numIds p ops q t) :
    q.heap.account.held.length + (liveIds numIds p.isLive).card =
      p.heap.account.held.length + (liveIds numIds q.isLive).card + leaks p.isLive ops := by
  induction hCourse with
  | start _ => rfl
  | @step ops q r t u line op hCourse hId hDoes _ hLive ih =>
    have hHeld := hDoes.held_length hCourse.sound
    have hSame : ∀ j, op.id ≠ j → r.isLive j = q.isLive j := by
      intro j hNe
      rw [hLive, Op.after, if_neg hNe]
    have hCard := card_liveIds_change hId hSame
    rw [leaks_concat, ← hCourse.isLive]
    change r.heap.account.held.length + _ = _ + (liveIds numIds r.isLive).card + _
    omega

end Progress

/-- What a replay leaves behind: the blocks that were in use before, and a block more for each id
that is live at the end and for each payload that has been leaked. -/
structure Leaves {S : Type} (trace : Trace) (h h' : Heap S) : Prop where
  kept : ∀ b ∈ h.blocks, b.allocated = true → b ∈ h'.blocks
  added : ∃ added, (held h'.blocks).Perm (held h.blocks ++ added) ∧ added.length =
    (liveIds trace.numIds (liveAfter (fun _ => false) trace.ops)).card +
      leaks (fun _ => false) trace.ops

theorem Progress.Course.leaves {S : Type} [Supply S] {old : Memory} {trace : Trace} {h h' : Heap S}
    {q : Progress S} {s t : Shape} (hRest : h.memory.AtRest s)
    (hCourse : Course old (held s.blocks) trace.numIds { heap := h } trace.ops q t)
    (hHeap : h'.account.held = q.heap.account.held) : trace.Leaves h h' := by
  have hBefore : h.blocks = s.blocks := hRest.shows.blocks
  have hHeld : held h'.blocks = held t.blocks :=
    hHeap.trans (Heap.account_held hCourse.sound.atRest)
  have hKept : held h.blocks ⊆ held h'.blocks := by
    rw [hBefore, hHeld]
    intro b hb
    obtain ⟨hIn, hAllocated, _⟩ := hCourse.sound.ledger.kept b hb
    exact mem_held.mpr ⟨hIn, hAllocated⟩
  refine ⟨fun b hb hAllocated => (mem_held.mp (hKept (mem_held.mpr ⟨hb, hAllocated⟩))).1, ?_⟩
  have hNodup : (held h.blocks).Nodup := hBefore ▸ hRest.shows.nodup_held
  obtain ⟨old, hOld, hSublist⟩ := List.subperm_of_subset hNodup hKept
  obtain ⟨added, hAdded⟩ := hSublist.exists_perm_append
  have hPerm := hAdded.trans (hOld.append_right added)
  refine ⟨added, hPerm, ?_⟩
  have hLength : (held h'.blocks).length = (held h.blocks).length + added.length := by
    rw [hPerm.length_eq, List.length_append]
  have hEmpty : (liveIds trace.numIds fun _ => false).card = 0 :=
    card_liveIds_eq_zero.mpr fun _ _ => rfl
  have hCount := hCourse.held_length
  rw [hCourse.isLive, Progress.isLive_start, hEmpty, ← hHeap] at hCount
  change (held h'.blocks).length + 0 = (held h.blocks).length + _ + _ at hCount
  omega

end Trace

/-- Nothing is in use, and whatever has been allocated has been released. -/
structure Heap.Clean {S : Type} (h : Heap S) : Prop where
  blocks : h.blocks = [⟨140, h.currentSize - 144, false⟩]
  liveBytes : h.metrics.liveBytes = 0
  count : h.metrics.allocations = h.metrics.releases

theorem Heap.clean_of_unheld {S : Type} {h : Heap S} {t : Shape} (hRest : h.memory.AtRest t)
    (hBalanced : h.account.Balanced) (hSpace : 144 < h.currentSize)
    (hHeld : h.account.held = []) : h.Clean := by
  obtain ⟨hLive, hCount, _⟩ := hBalanced
  rw [hHeld] at hLive hCount
  rw [account_held hRest] at hHeld
  refine ⟨hRest.shows.blocks.trans (hRest.blocks_of_free hSpace fun b hb => ?_), hLive, hCount⟩
  have hNot := List.filter_eq_nil_iff.mp hHeld b hb
  exact Bool.eq_false_iff.mpr hNot

namespace Session

variable {S : Type} [Supply S] [Supply.Limited S] {supply : S} {config : Config} {h h' : Heap S}
  {s : Session S}

omit [Supply.Limited S] in
/-- An arena that a heap has been built on has room for a block. -/
theorem space_of_reaches (hConfig : config.Roomy)
    (hBuild : Heap.ofArena (.fresh supply) config = .ok (.ok h)) (hReach : Reaches ⟨h, []⟩ s) :
    144 < s.heap.currentSize := by
  obtain ⟨t, hStart⟩ := steady_of_built hConfig hBuild
  have hChunk := hConfig.chunk
  have hBuilt : h.currentSize = 144 + config.chunkSize :=
    congrArg Account.size (Heap.ofArena_account hConfig hBuild)
  have hGrown : h.currentSize ≤ s.heap.currentSize := hStart.size_le hReach
  omega

omit [Supply S] [Supply.Limited S] in
theorem Steady.held_eq_nil {t : Shape} (hSteady : s.Steady t) (hLive : s.live = []) :
    s.heap.account.held = [] := by
  rw [Heap.account_held hSteady.atRest]
  refine TaggedHeap.held_eq_nil fun b hb => Bool.eq_false_iff.mpr fun hAllocated => ?_
  obtain ⟨g, hg, _⟩ := hSteady.block b hb hAllocated
  rw [hLive] at hg
  cases hg

/-- A replay that is completed leaks what its trace leaks. If nobody has anything in use before, and
the trace gives up all that it allocates, nothing is in use afterwards. -/
theorem reaches_leaks {text : String} {trace : Trace} {stats : Trace.Stats}
    (hParse : Trace.parse text = .ok trace) (hValid : config.validate = .ok ())
    (hChunk : 32 ≤ config.chunkSize) (hWord : config.chunkSize < 2 ^ 64)
    (hBuild : Heap.ofArena (.fresh supply) config = .ok (.ok h)) (hReach : Reaches ⟨h, []⟩ s)
    (hReplay : trace.replay s.heap = .ok (.ok stats, h')) :
    trace.Leaves s.heap h' ∧
      (s.live = [] → Trace.leaks (fun _ => false) trace.ops = 0 →
        (∀ id < trace.numIds, Trace.liveAfter (fun _ => false) trace.ops id = false) → h'.Clean) := by
  have hConfig : config.Roomy := ⟨hValid, hChunk, hWord⟩
  obtain ⟨t, hStart⟩ := steady_of_built hConfig hBuild
  obtain ⟨u, hSteady⟩ := hStart.reaches hReach
  obtain ⟨q, hRun, _, hEnd⟩ := Trace.run_of_replay hReplay
  obtain ⟨v, hCourse⟩ := Trace.Progress.exists_course (hSteady.starts trace.numIds)
    (Trace.parse_id_lt hParse) hRun
  have hLeaves : trace.Leaves s.heap h' := hCourse.leaves hSteady.atRest (by rw [hEnd]; rfl)
  refine ⟨hLeaves, fun hLive hNone hDead => ?_⟩
  have hBalanced := (hCourse.acts.balanced (balanced_of_reaches hConfig hBuild hReach)).1
  have hGrown : s.heap.currentSize ≤ q.heap.currentSize := hCourse.acts.size_le
  have hSpace := (space_of_reaches hConfig hBuild hReach).trans_le hGrown
  obtain ⟨added, hPerm, hLength⟩ := hLeaves.added
  rw [hNone, Trace.card_liveIds_eq_zero.mpr hDead] at hLength
  have hBefore : held s.heap.blocks = [] := hSteady.held_eq_nil hLive
  rw [hBefore, List.length_eq_zero_iff.mp hLength] at hPerm
  subst hEnd
  have hClean : q.heap.Clean :=
    Heap.clean_of_unheld hCourse.sound.atRest hBalanced hSpace hPerm.eq_nil
  exact ⟨hClean.blocks, hClean.liveBytes, hClean.count⟩

theorem reaches_leaks_overwritten :
    (∃ (s : Session Cap) (trace : Trace) (h' : Heap Cap), s.live.map Grant.pointer = [144] ∧
      Trace.parse "0\n1\n2\n1\na 0 8\na 0 8" = .ok trace ∧ trace.Leaves s.heap h' ∧
      (held s.heap.blocks).length = 1 ∧ (held h'.blocks).length = 3) ∧
    ∃ (s : Session Cap) (trace : Trace) (h' : Heap Cap),
      Trace.parse "0\n1\n2\n1\na 0 8\nr 0 0" = .ok trace ∧ trace.Leaves s.heap h' ∧
      h'.Clean := by
  constructor
  · obtain ⟨h, s, trace, stats, h', hBuild, hReach, hParse, hReplay, hCheck⟩ := exists_replay
      (⟨1000⟩ : Cap) { chunkSize := 120, checkOnReplay := false } [.allocate 8]
      "0\n1\n2\n1\na 0 8\na 0 8" (fun s _ h' => s.live.map Grant.pointer == [144] &&
        (held s.heap.blocks).length == 1 && (held h'.blocks).length == 3) (by decide +kernel)
    simp only [Bool.and_eq_true, beq_iff_eq] at hCheck
    obtain ⟨⟨hPointers, hBefore⟩, hAfter⟩ := hCheck
    exact ⟨s, trace, h', hPointers, hParse,
      (reaches_leaks hParse rfl (by decide) (by decide) hBuild hReach hReplay).1, hBefore, hAfter⟩
  · obtain ⟨h, s, trace, stats, h', hBuild, hReach, hParse, hReplay, hCheck⟩ := exists_replay
      (⟨1000⟩ : Cap) { chunkSize := 40 } [] "0\n1\n2\n1\na 0 8\nr 0 0"
      (fun s _ _ => s.live.isEmpty) (by decide +kernel)
    have hText : Trace.parse "0\n1\n2\n1\na 0 8\nr 0 0" =
        .ok ⟨0, 1, 1, [(5, .allocate 0 8), (6, .reallocate 0 0)]⟩ := by
      decide +kernel
    obtain ⟨hLeaves, hClean⟩ :=
      reaches_leaks hParse rfl (by decide) (by decide) hBuild hReach hReplay
    rw [hText] at hParse
    cases hParse
    exact ⟨s, _, h', hText, hLeaves,
      hClean (List.isEmpty_iff.mp hCheck) (by decide) (by decide)⟩

end Session

end TaggedHeap
