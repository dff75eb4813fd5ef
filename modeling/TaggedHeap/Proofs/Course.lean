import TaggedHeap.Proofs.Passage
import TaggedHeap.Proofs.Replay

/-! # The course of a replay

A replay that comes to its end has done one operation after the other, each from a sound stage to a
sound stage. What an operation does to the heap is one allocation, reallocation or release, and, if
it leaves its id live, the filling of the payload.
-/

namespace TaggedHeap

namespace Heap

variable {S : Type} {g h h' : Heap S} {s t : Shape} {b c : Block}

theorem Ends.post {α : Type} {run : Checked (Outcome S α)} {post : α → Heap S → Prop} {a : α}
    (hEnds : h.Ends run post) (hRun : run = .ok (.ok a, h')) : post a h' := by
  cases hEnds with
  | refused _ _ hRun' =>
    rw [hRun] at hRun'
    cases hRun'
  | done _ _ hRun' _ hPost =>
    rw [hRun] at hRun'
    cases hRun'
    exact hPost

/-- Filling an allocated payload changes nothing else. -/
theorem account_fill {size : Nat} {x : UInt8} (hRest : g.memory.AtRest t) (hc : c ∈ t.blocks)
    (hAllocated : c.allocated = true) (hRoom : size + 8 ≤ c.size)
    (hFill : g.fillPayload (c.offset + 4) size x = .ok (.ok (), h)) : h.account = g.account := by
  obtain ⟨n, hRun, hAgree, _⟩ := fillPayload_atRest hRest hc hAllocated size x hRoom
  rw [hFill] at hRun
  cases hRun
  exact account_withMemory hRest (hRest.refill hc hAllocated hAgree) hAgree.size

theorem account_held (hRest : h.memory.AtRest s) : h.account.held = held s.blocks :=
  congrArg TaggedHeap.held hRest.shows.blocks

section Done

variable [Supply S] {pointer size : Nat} {x : UInt8}

theorem gains_of_filled (hRest : h.memory.AtRest s) (hConfig : h.config.Roomy)
    (hRun : h.tryAllocate size = .ok (.ok pointer, g))
    (hFill : g.fillPayload pointer size x = .ok (.ok (), h')) :
    h'.account = g.account ∧ ∃ c t, h.memory.Gains s c g.memory t := by
  obtain ⟨c, t, rfl, hRoom, hGains⟩ := (tryAllocate_atRest hRest hConfig size).post hRun
  have hc := (hGains.mem_iff c hGains.allocated).mpr (Or.inl rfl)
  exact ⟨account_fill hGains.atRest hc hGains.allocated (by omega) hFill, c, t, hGains⟩

theorem moves_of_filled {old : Nat} (hRest : h.memory.AtRest s) (hConfig : h.config.Roomy)
    (hTakes : ∀ p ∈ some old, h.Takes s p)
    (hRun : h.tryReallocate (some old) size = .ok (.ok (some pointer), g))
    (hFill : g.fillPayload pointer size x = .ok (.ok (), h')) :
    h'.account = g.account ∧ ∃ b c copied t, b ∈ s.blocks ∧ b.allocated = true ∧
      h.memory.Moves s b c copied g.memory t := by
  cases (tryReallocate_atRest hRest hConfig size hTakes).post hRun with
  | @moved b c t hb hAllocated hRoom hMoves =>
    have hc := (hMoves.mem_iff c hMoves.allocated).mpr (Or.inl rfl)
    exact ⟨account_fill hMoves.atRest hc hMoves.allocated (by omega) hFill, b, c, _, t, hb,
      hAllocated, hMoves⟩

theorem loses_of_givenUp {old : Nat} (hRest : h.memory.AtRest s) (hConfig : h.config.Roomy)
    (hTakes : ∀ p ∈ some old, h.Takes s p)
    (hRun : h.tryReallocate (some old) size = .ok (.ok none, g)) :
    ∃ b t, b ∈ s.blocks ∧ b.allocated = true ∧ h.memory.Loses s b g.memory t := by
  cases (tryReallocate_atRest hRest hConfig size hTakes).post hRun with
  | @lost b t _ hb hAllocated hLoses => exact ⟨b, t, hb, hAllocated, hLoses⟩

omit [Supply S] in
theorem loses_of_released {old : Nat} (hRest : h.memory.AtRest s) (hTakes : h.Takes s old)
    (hRun : h.release old = .ok (.ok (), g)) :
    ∃ b t, b ∈ s.blocks ∧ b.allocated = true ∧ h.memory.Loses s b g.memory t := by
  rcases hTakes with hReject | ⟨b, hb, hAllocated, rfl⟩
  · obtain ⟨error, hRun'⟩ := release_of_rejects hReject
    rw [hRun] at hRun'
    cases hRun'
  · obtain ⟨h', t, hRun', _, _, hLoses⟩ := release_atRest hRest hb hAllocated
    rw [hRun] at hRun'
    cases hRun'
    exact ⟨b, t, hb, hAllocated, hLoses⟩

end Done

end Heap

namespace Trace.Progress

variable {S : Type} [Supply S] {old : Memory} {others : List Block} {numIds : Nat}
  {p q r : Progress S} {t u : Shape} {line : Nat} {op : Op} {ops : List (Nat × Op)}

/-- What an operation that is done has asked of the heap, and what has become of the table. -/
inductive Does (p : Progress S) : Op → Progress S → Prop where
  | allocate {id size pointer requested : Nat} {g h : Heap S}
      (hRun : p.heap.tryAllocate size = .ok (.ok pointer, g))
      (hFill : g.fillPayload pointer size (fillByte id) = .ok (.ok (), h)) :
      Does p (.allocate id size) ⟨h, p.live.insert id ⟨pointer, size⟩, requested, p.peak⟩
  | move {id size pointer requested : Nat} {l : Live} {g h : Heap S} (hOld : p.live[id]? = some l)
      (hRun : p.heap.tryReallocate (some l.pointer) size = .ok (.ok (some pointer), g))
      (hFill : g.fillPayload pointer size (fillByte id) = .ok (.ok (), h)) :
      Does p (.reallocate id size) ⟨h, p.live.insert id ⟨pointer, size⟩, requested, p.peak⟩
  | giveUp {id size requested : Nat} {l : Live} {h : Heap S} (hOld : p.live[id]? = some l)
      (hRun : p.heap.tryReallocate (some l.pointer) size = .ok (.ok none, h)) :
      Does p (.reallocate id size) ⟨h, p.live.erase id, requested, p.peak⟩
  | free {id requested : Nat} {l : Live} {h : Heap S} (hOld : p.live[id]? = some l)
      (hRun : p.heap.release l.pointer = .ok (.ok (), h)) :
      Does p (.free id) ⟨h, p.live.erase id, requested, p.peak⟩

section Inversion

variable {id size : Nat}

omit [Supply S] in
/-- The end of an operation that leaves its id live. -/
theorem eq_of_fill {g : Heap S} {live : Std.TreeMap Nat Live} {pointer requested peak : Nat}
    (hRun : (do
      match ← g.fillPayload pointer size (fillByte id) with
      | (.error error, h) => return (.error (.refused line error), ⟨h, live, requested, peak⟩)
      | (.ok (), h) =>
        let sum ← plus requested size
        return (.ok (), ⟨h, live.insert id ⟨pointer, size⟩, sum, peak⟩) : Checked (Stage S)) =
      .ok (.ok (), q)) :
    ∃ h sum, g.fillPayload pointer size (fillByte id) = .ok (.ok (), h) ∧
      q = ⟨h, live.insert id ⟨pointer, size⟩, sum, peak⟩ := by
  rw [bind_eq_ok_iff] at hRun
  obtain ⟨⟨_ | _, h⟩, hFill, hRun⟩ := hRun
  · cases hRun
  dsimp only at hRun
  rw [bind_eq_ok_iff] at hRun
  obtain ⟨sum, _, hEnd⟩ := hRun
  cases hEnd
  exact ⟨h, sum, hFill, rfl⟩

theorem does_of_allocate (hRun : p.allocate line id size = .ok (.ok (), q)) :
    p.Does (.allocate id size) q := by
  rw [allocate, bind_eq_ok_iff] at hRun
  obtain ⟨⟨_ | pointer, g⟩, hAllocate, hRun⟩ := hRun
  · cases hRun
  have hFilled : ∃ h sum, g.fillPayload pointer size (fillByte id) = .ok (.ok (), h) ∧
      q = ⟨h, p.live.insert id ⟨pointer, size⟩, sum, p.peak⟩ := by
    cases hOld : p.live[id]? with
    | none =>
      rw [hOld] at hRun
      exact eq_of_fill hRun
    | some l =>
      rw [hOld] at hRun
      dsimp only at hRun
      rw [bind_eq_ok_iff] at hRun
      obtain ⟨_, _, hRun⟩ := hRun
      exact eq_of_fill hRun
  obtain ⟨h, sum, hFill, rfl⟩ := hFilled
  exact .allocate hAllocate hFill

theorem does_of_reallocate (hRun : p.reallocate line id size = .ok (.ok (), q)) :
    p.Does (.reallocate id size) q := by
  rw [reallocate] at hRun
  cases hOld : p.live[id]? with
  | none =>
    rw [hOld] at hRun
    cases hRun
  | some l =>
    rw [hOld] at hRun
    dsimp only at hRun
    rw [bind_eq_ok_iff] at hRun
    obtain ⟨_ | _, _, hRun⟩ := hRun
    · cases hRun
    dsimp only at hRun
    rw [bind_eq_ok_iff] at hRun
    obtain ⟨⟨_ | _ | pointer, g⟩, hReallocate, hRun⟩ := hRun
    · cases hRun
    · dsimp only at hRun
      rw [bind_eq_ok_iff] at hRun
      obtain ⟨_, _, hEnd⟩ := hRun
      cases hEnd
      exact .giveUp hOld hReallocate
    · dsimp only at hRun
      rw [bind_eq_ok_iff] at hRun
      obtain ⟨_, _, hRun⟩ := hRun
      rw [bind_eq_ok_iff] at hRun
      obtain ⟨_ | _, _, hRun⟩ := hRun
      · cases hRun
      obtain ⟨h, sum, hFill, rfl⟩ := eq_of_fill hRun
      exact .move hOld hReallocate hFill

theorem does_of_free (hRun : p.free line id = .ok (.ok (), q)) : p.Does (.free id) q := by
  rw [free] at hRun
  cases hOld : p.live[id]? with
  | none =>
    rw [hOld] at hRun
    cases hRun
  | some l =>
    rw [hOld] at hRun
    dsimp only at hRun
    rw [bind_eq_ok_iff] at hRun
    obtain ⟨_ | _, _, hRun⟩ := hRun
    · cases hRun
    dsimp only at hRun
    rw [bind_eq_ok_iff] at hRun
    obtain ⟨⟨_ | _, h⟩, hRelease, hRun⟩ := hRun
    · cases hRun
    dsimp only at hRun
    rw [bind_eq_ok_iff] at hRun
    obtain ⟨_, _, hRun⟩ := hRun
    cases hRun
    exact .free hOld hRelease

theorem does_of_apply (hRun : p.apply line op = .ok (.ok (), q)) : p.Does op q := by
  cases op with
  | allocate id size => exact does_of_allocate hRun
  | reallocate id size => exact does_of_reallocate hRun
  | free id => exact does_of_free hRun

theorem does_of_step {check : Bool} (hRun : p.step check line op = .ok (.ok (), q)) :
    ∃ r, p.Does op r ∧ q = r.notePeak := by
  rw [step, bind_eq_ok_iff] at hRun
  obtain ⟨⟨_ | _, r⟩, hApply, hRun⟩ := hRun
  · cases hRun
  refine ⟨r, does_of_apply hApply, ?_⟩
  dsimp only at hRun
  split at hRun
  · rw [bind_eq_ok_iff] at hRun
    obtain ⟨_ | _, _, hRun⟩ := hRun
    · cases hRun
    · cases hRun
      rfl
  · cases hRun
    rfl

end Inversion

omit [Supply S] in
theorem Sound.takes {id : Nat} {l : Live} (hSound : p.Sound old others numIds t)
    (hOld : p.live[id]? = some l) : ∀ x ∈ some l.pointer, p.heap.Takes t x := by
  obtain ⟨b, hb, _, hFills⟩ := hSound.ledger.held id l hOld
  intro x hx
  cases hx
  exact Or.inr ⟨b, hb, hFills.allocated, hFills.pointer⟩

/-- An operation of a trace is nothing but acts of the heap. -/
theorem Does.acts (hDoes : p.Does op q) (hSound : p.Sound old others numIds t) :
    p.heap.account.Acts q.heap.account := by
  have hRest := hSound.atRest
  have hConfig := hSound.config
  cases hDoes with
  | allocate hRun hFill =>
    dsimp only
    rw [(Heap.gains_of_filled hRest hConfig hRun hFill).1]
    exact (Heap.burst_tryAllocate hRest hConfig hRun).acts
  | move hOld hRun hFill =>
    have hTakes := hSound.takes hOld
    dsimp only
    rw [(Heap.moves_of_filled hRest hConfig hTakes hRun hFill).1]
    exact (Heap.passes_tryReallocate hRest hConfig hTakes hRun).acts
  | giveUp hOld hRun =>
    exact (Heap.passes_tryReallocate hRest hConfig (hSound.takes hOld) hRun).acts
  | free hOld hRun => exact (Heap.burst_release hRest (hSound.takes hOld _ rfl) hRun).acts

theorem run_append {check : Bool} {pre post : List (Nat × Op)} :
    p.run check (pre ++ post) = .ok (.ok (), q) ↔
      ∃ r, p.run check pre = .ok (.ok (), r) ∧ r.run check post = .ok (.ok (), q) := by
  induction pre generalizing p with
  | nil =>
    constructor
    · intro hRun
      exact ⟨p, rfl, hRun⟩
    · rintro ⟨r, hEnd, hRun⟩
      cases hEnd
      exact hRun
  | cons entry pre ih =>
    obtain ⟨line, op⟩ := entry
    simp only [List.cons_append, run]
    rcases p.step check line op with fault | ⟨failure | _, r⟩
    · simp
    · simp [pure, Except.pure]
    · exact ih

omit [Supply S] in
/-- No id is live at the start. -/
theorem isLive_start {h : Heap S} : ({ heap := h } : Progress S).isLive = fun _ => false :=
  funext fun _ => isLive_of_none Std.TreeMap.getElem?_emptyc

/-- The stages that a replay goes through, each of them sound. -/
inductive Course (old : Memory) (others : List Block) (numIds : Nat) (p : Progress S) :
    List (Nat × Op) → Progress S → Shape → Prop where
  | start {t : Shape} (hSound : p.Sound old others numIds t) : Course old others numIds p [] p t
  | step {ops : List (Nat × Op)} {q r : Progress S} {t u : Shape} {line : Nat} {op : Op}
      (hCourse : Course old others numIds p ops q t) (hId : op.id < numIds) (hDoes : q.Does op r)
      (hSound : r.notePeak.Sound old others numIds u) (hLive : r.isLive = op.after q.isLive) :
      Course old others numIds p (ops ++ [(line, op)]) r.notePeak u

namespace Course

theorem sound (hCourse : Course old others numIds p ops q t) : q.Sound old others numIds t := by
  cases hCourse with
  | start hSound => exact hSound
  | step _ _ _ hSound _ => exact hSound

theorem acts (hCourse : Course old others numIds p ops q t) :
    p.heap.account.Acts q.heap.account := by
  induction hCourse with
  | start _ => exact .refl
  | step hCourse _ hDoes _ _ ih => exact ih.trans (hDoes.acts hCourse.sound)

theorem isLive (hCourse : Course old others numIds p ops q t) :
    q.isLive = liveAfter p.isLive ops := by
  induction hCourse with
  | start _ => rfl
  | step _ _ _ _ hLive ih =>
    rw [liveAfter, List.foldl_concat, ← liveAfter, ← ih]
    exact hLive

theorem isLive_of_fresh {h : Heap S} (hCourse : Course old others numIds { heap := h } ops q t) :
    q.isLive = liveAfter (fun _ => false) ops := by
  rw [hCourse.isLive, isLive_start]

end Course

theorem exists_course [Supply.Limited S] {check : Bool} (hSound : p.Sound old others numIds t)
    (hIds : ∀ entry ∈ ops, entry.2.id < numIds) (hRun : p.run check ops = .ok (.ok (), q)) :
    ∃ u, Course old others numIds p ops q u := by
  induction ops using List.reverseRecOn generalizing q with
  | nil =>
    cases hRun
    exact ⟨t, .start hSound⟩
  | append_singleton ops entry ih =>
    obtain ⟨line, op⟩ := entry
    obtain ⟨r, hFirst, hLast⟩ := run_append.mp hRun
    obtain ⟨u, hCourse⟩ := ih (fun entry hEntry => hIds entry (List.mem_append_left _ hEntry)) hFirst
    have hId : op.id < numIds := hIds (line, op) List.mem_concat_self
    rcases step_ends hCourse.sound hId check line with
      ⟨failure, r', hStep, _, _⟩ | ⟨q', v, hStep, _, hSound', hLive⟩
    · rw [run, hStep] at hLast
      cases hLast
    · rw [run_cons hStep] at hLast
      cases hLast
      obtain ⟨r', hDoes, rfl⟩ := does_of_step hStep
      exact ⟨v, .step hCourse hId hDoes hSound' hLive⟩

end Trace.Progress

/-- A replay that comes to its end has run all operations. -/
theorem Trace.run_of_replay {S : Type} [Supply S] {trace : Trace} {h h' : Heap S} {stats : Trace.Stats}
    (hReplay : trace.replay h = .ok (.ok stats, h')) :
    ∃ q, Trace.Progress.run h.config.checkOnReplay { heap := h } trace.ops = .ok (.ok (), q) ∧
      stats = ⟨trace.ops.length, q.peak, q.heap.currentSize⟩ ∧
      h' = q.heap.log (.replayed stats) := by
  rw [Trace.replay, bind_eq_ok_iff] at hReplay
  obtain ⟨_, _, hReplay⟩ := hReplay
  dsimp only at hReplay
  rw [bind_eq_ok_iff] at hReplay
  obtain ⟨⟨_ | _, q⟩, hRun, hEnd⟩ := hReplay
  · cases hEnd
  · cases hEnd
    exact ⟨q, hRun, rfl, rfl⟩

/-- A replay that is completed on a session that has been rehearsed. -/
theorem Session.exists_replay {S : Type} [Supply S] (supply : S) (config : Config)
    (requests : List Request) (text : String) (check : Session S → Trace.Stats → Heap S → Bool)
    (hCheck : rehearse supply config requests (fun s =>
      (Trace.parse text).toOption.any fun trace => (trace.replay s.heap).toOption.any fun r =>
        r.1.toOption.any fun stats => check s stats r.2) = true) :
    ∃ h s trace stats h', Heap.ofArena (.fresh supply) config = .ok (.ok h) ∧
      Reaches ⟨h, []⟩ s ∧ Trace.parse text = .ok trace ∧
      trace.replay s.heap = .ok (.ok stats, h') ∧ check s stats h' = true := by
  obtain ⟨h, s, hBuild, hPermits, hRun, hTrace⟩ := exists_of_rehearse hCheck
  obtain ⟨trace, hParse, hEnds⟩ := exists_of_any hTrace
  obtain ⟨⟨_, h'⟩, hReplay, hAnswer⟩ := exists_of_any hEnds
  obtain ⟨stats, rfl, hHolds⟩ := exists_of_any hAnswer
  exact ⟨h, s, trace, stats, h', hBuild, Reaches.start.run hPermits hRun, hParse, hReplay, hHolds⟩

end TaggedHeap
