import Mathlib.Algebra.BigOperators.Group.List.Basic
import Mathlib.Algebra.GroupWithZero.Nat
import Mathlib.Order.Bounds.Defs
import TaggedHeap.Proofs.Passage

/-! # Metering

The metrics of a heap are those of the blocks that it has. What is counted at an allocation is what
is taken off at the release, since the size of a block does not change while it is allocated; so the
live bytes are always the payload bytes of the allocated blocks, and the peak is the most that they
have been since the heap started over.
-/

namespace TaggedHeap

/-- The payload bytes of blocks. -/
def payloadBytes (bs : List Block) : Nat := (bs.map fun b => b.size - 8).sum

section PayloadBytes

variable {bs cs : List Block} {b : Block}

theorem payloadBytes_cons : payloadBytes (b :: bs) = b.size - 8 + payloadBytes bs := List.sum_cons

theorem payloadBytes_perm (h : bs.Perm cs) : payloadBytes bs = payloadBytes cs :=
  (h.map _).sum_eq

theorem le_payloadBytes (h : b ∈ bs) : b.size - 8 ≤ payloadBytes bs := by
  rw [payloadBytes_perm (List.perm_cons_erase h), payloadBytes_cons]
  exact Nat.le_add_right _ _

end PayloadBytes

namespace Account

/-- The metrics are those of the allocated blocks. -/
structure Balanced (a : Account) : Prop where
  live : a.metrics.liveBytes = payloadBytes a.held
  count : a.metrics.allocations = a.metrics.releases + a.held.length
  peak : a.metrics.liveBytes ≤ a.metrics.peakLiveBytes

variable {a b : Account}

/-- Nothing is allocated, and nothing has been counted. -/
structure Unused (a : Account) : Prop where
  held : a.held = []
  metrics : ({} : Metrics).SameUse a.metrics

theorem unused_reset : a.reset.Unused := ⟨rfl, rfl, rfl, rfl, rfl⟩

theorem unused_restart (chunk : Nat) : (a.restart chunk).Unused := ⟨rfl, rfl, rfl, rfl, rfl⟩

theorem Unused.balanced (h : a.Unused) : a.Balanced := by
  obtain ⟨hHeld, hAllocations, hReleases, hLive, hPeak⟩ := h
  refine ⟨?_, ?_, ?_⟩
  · rw [hHeld, hLive]
    rfl
  · rw [hHeld, hAllocations, hReleases]
    rfl
  · rw [hLive]
    exact Nat.zero_le _

theorem Act.balanced (h : a.Act b) (hBalanced : a.Balanced) : b.Balanced := by
  obtain ⟨hLive, hCount, hPeak⟩ := hBalanced
  cases h with
  | grow increment hHeld _ hMetrics _ =>
    rw [← hHeld] at hLive hCount
    exact ⟨hMetrics ▸ hLive, hMetrics ▸ hCount, hMetrics ▸ hPeak⟩
  | allocate requested block hHeld _ _ hMetrics _ =>
    refine ⟨?_, ?_, ?_⟩
    · rw [payloadBytes_perm hHeld, payloadBytes_cons, hMetrics, ← hLive]
      exact Nat.add_comm _ _
    · rw [hHeld.length_eq, List.length_cons, hMetrics, ← Nat.add_assoc]
      exact congrArg (· + 1) hCount
    · rw [hMetrics]
      exact le_max_right _ _
  | release block hHeld _ hMetrics _ =>
    rw [payloadBytes_perm hHeld, payloadBytes_cons] at hLive
    rw [hHeld.length_eq, List.length_cons] at hCount
    refine ⟨?_, ?_, ?_⟩
    · rw [hMetrics]
      exact Nat.sub_eq_of_eq_add' hLive
    · rw [hMetrics]
      change a.metrics.allocations = a.metrics.releases + 1 + b.held.length
      omega
    · rw [hMetrics]
      exact le_trans (Nat.sub_le _ _) hPeak
  | note event _ hHeld _ hMetrics _ =>
    refine ⟨?_, ?_, ?_⟩
    · rw [hMetrics.liveBytes, hHeld, hLive]
    · rw [hMetrics.allocations, hMetrics.releases, hHeld, hCount]
    · rw [hMetrics.liveBytes, hMetrics.peakLiveBytes]
      exact hPeak

theorem Act.peak_le (h : a.Act b) : a.metrics.peakLiveBytes ≤ b.metrics.peakLiveBytes := by
  cases h with
  | grow _ _ _ hMetrics _ => exact hMetrics ▸ le_rfl
  | allocate _ _ _ _ _ hMetrics _ => exact hMetrics ▸ le_max_left _ _
  | release _ _ _ hMetrics _ => exact hMetrics ▸ le_rfl
  | note _ _ _ _ hMetrics _ => exact le_of_eq hMetrics.peakLiveBytes.symm

theorem Acts.balanced (h : a.Acts b) (hBalanced : a.Balanced) :
    b.Balanced ∧ a.metrics.peakLiveBytes ≤ b.metrics.peakLiveBytes := by
  induction h with
  | refl => exact ⟨hBalanced, le_rfl⟩
  | tail _ hAct ih => exact ⟨hAct.balanced ih.1, ih.2.trans hAct.peak_le⟩

end Account

namespace Heap

variable {S : Type} {h h' : Heap S} {t : Shape}

/-- The metrics are those of the allocated blocks, and a release takes off what the allocation has
added: the live bytes never fall short of it. -/
structure Metered (h : Heap S) : Prop where
  live : h.metrics.liveBytes = payloadBytes (held h.blocks)
  count : h.metrics.allocations = h.metrics.releases + (held h.blocks).length
  release : ∀ b ∈ held h.blocks, ∃ g, h.release (b.offset + 4) = .ok (.ok (), g) ∧
    g.metrics.liveBytes + (b.size - 8) = h.metrics.liveBytes

theorem metered_of_balanced (hRest : h.memory.AtRest t) (hBalanced : h.account.Balanced) :
    h.Metered := by
  refine ⟨hBalanced.live, hBalanced.count, fun b hb => ?_⟩
  have hLe := le_payloadBytes hb
  have hLive : h.metrics.liveBytes = payloadBytes (held h.blocks) := hBalanced.live
  have hBlocks : h.blocks = t.blocks := hRest.shows.blocks
  rw [hBlocks] at hb
  obtain ⟨hMem, hAllocated⟩ := mem_held.mp hb
  obtain ⟨n, u, _, _, _, hRun⟩ := release_eq hRest hMem hAllocated
  exact ⟨_, hRun, Nat.sub_add_cancel (le_of_le_of_eq hLe hLive.symm)⟩

/-- What the live bytes of some heaps are. -/
def levels (trail : List (Heap S)) : Set Nat := {n | ∃ g ∈ trail, g.metrics.liveBytes = n}

theorem isGreatest_levels_burst {trail : List (Heap S)} (hBurst : h.account.Burst h'.account)
    (hBalanced : h.account.Balanced) (hPeak : IsGreatest (levels trail) h.metrics.peakLiveBytes) :
    IsGreatest (levels (h' :: trail)) h'.metrics.peakLiveBytes := by
  obtain ⟨⟨f, hf, hLevel⟩, hUpper⟩ := hPeak
  obtain ⟨hBalanced', hMono⟩ := hBurst.acts.balanced hBalanced
  refine ⟨?_, ?_⟩
  · rcases hBurst.peak with hSame | hNew
    · exact ⟨f, List.mem_cons_of_mem _ hf, hLevel.trans hSame.symm⟩
    · exact ⟨h', List.mem_cons_self, hNew.symm⟩
  · rintro n ⟨g, hg, rfl⟩
    rcases List.mem_cons.mp hg with rfl | hOld
    · exact hBalanced'.peak
    · exact (hUpper ⟨g, hOld, rfl⟩).trans hMono

end Heap

namespace Session

variable {S : Type} {s s' : Session S} {t : Shape} {trail : List (Heap S)}

/-- The heaps that a session has had since the last initialisation, those midway through its
reallocations included, the latest first. -/
inductive Trail [Supply S] (s : Session S) : List (Heap S) → Session S → Prop where
  | start : Trail s [s.heap] s
  | step {trail : List (Heap S)} {t u : Session S} {r : Request} {between : Option (Heap S)}
      (hTrail : Trail s trail t) (hAllows : t.Allows r) (hInit : r ≠ .init)
      (hBetween : t.heap.between r = .ok between) (hStep : t.step r = .ok u) :
      Trail s (u.heap :: (between.toList ++ trail)) u
  | init {trail : List (Heap S)} {t u : Session S} (hTrail : Trail s trail t)
      (hStep : t.step .init = .ok u) : Trail s [u.heap] u

/-- All heaps of a trail are metered, and the peak is the most that any of them has had. -/
structure Tracked (s : Session S) (trail : List (Heap S)) : Prop where
  balanced : s.heap.account.Balanced
  metered : ∀ g ∈ trail, g.Metered
  peak : IsGreatest (Heap.levels trail) s.heap.metrics.peakLiveBytes

theorem tracked_of_unused (hRest : s.heap.memory.AtRest t) (hUnused : s.heap.account.Unused) :
    s.Tracked [s.heap] := by
  have hBalanced := hUnused.balanced
  have hPeak : s.heap.metrics.liveBytes = s.heap.metrics.peakLiveBytes :=
    hUnused.metrics.liveBytes.trans hUnused.metrics.peakLiveBytes.symm
  refine ⟨hBalanced, fun g hg => ?_, ⟨s.heap, List.mem_singleton_self _, hPeak⟩, ?_⟩
  · rw [List.mem_singleton.mp hg]
    exact Heap.metered_of_balanced hRest hBalanced
  · rintro n ⟨g, hg, rfl⟩
    rw [List.mem_singleton.mp hg]
    exact hBalanced.peak

theorem Tracked.step {u : Shape} {between : Option (Heap S)} (hTracked : s.Tracked trail)
    (hPasses : s.heap.Passes (.ok between) s'.heap) (hRest : s'.heap.memory.AtRest u) :
    s'.Tracked (s'.heap :: (between.toList ++ trail)) := by
  obtain ⟨hBalanced, hMetered, hPeak⟩ := hTracked
  cases hPasses with
  | straight hBurst =>
    have hBalanced' := (hBurst.acts.balanced hBalanced).1
    exact ⟨hBalanced', List.forall_mem_cons.mpr ⟨Heap.metered_of_balanced hRest hBalanced', hMetered⟩,
      Heap.isGreatest_levels_burst hBurst hBalanced hPeak⟩
  | @midway g _ _ hRestG hBurst hBurst' =>
    have hBalancedG := (hBurst.acts.balanced hBalanced).1
    have hBalanced' := (hBurst'.acts.balanced hBalancedG).1
    have hPeakG := Heap.isGreatest_levels_burst hBurst hBalanced hPeak
    exact ⟨hBalanced', List.forall_mem_cons.mpr ⟨Heap.metered_of_balanced hRest hBalanced',
      List.forall_mem_cons.mpr ⟨Heap.metered_of_balanced hRestG hBalancedG, hMetered⟩⟩,
      Heap.isGreatest_levels_burst hBurst' hBalancedG hPeakG⟩

variable [Supply S]

theorem Trail.mem (h : Trail s trail s') : s'.heap ∈ trail := by
  cases h with
  | start => exact List.mem_singleton_self _
  | step _ _ _ _ _ => exact List.mem_cons_self
  | init _ _ => exact List.mem_singleton_self _

theorem Trail.tracked (hTrail : Trail s trail s') (hSteady : s.Steady t)
    (hStart : s.Tracked [s.heap]) : (∃ u, s'.Steady u) ∧ s'.Tracked trail := by
  induction hTrail with
  | start => exact ⟨⟨t, hSteady⟩, hStart⟩
  | step _ hAllows hInit hBetween hStep ih =>
    obtain ⟨⟨u, hSteady'⟩, hTracked⟩ := ih
    obtain ⟨s'', v, hRun, hSteady''⟩ := hSteady'.step hAllows
    rw [hStep] at hRun
    cases hRun
    have hPasses := hSteady'.passes hAllows hInit hStep
    rw [hBetween] at hPasses
    exact ⟨⟨v, hSteady''⟩, hTracked.step hPasses hSteady''.atRest⟩
  | init _ hStep ih =>
    obtain ⟨⟨u, hSteady'⟩, _⟩ := ih
    obtain ⟨s'', v, hRun, hSteady''⟩ := hSteady'.step_init
    rw [hStep] at hRun
    cases hRun
    refine ⟨⟨v, hSteady''⟩, ?_⟩
    rcases hSteady'.account_init hStep with ⟨_, _, _, hAccount⟩ | ⟨_, _, hAccount⟩
    · exact tracked_of_unused hSteady''.atRest (hAccount ▸ Account.unused_reset)
    · exact tracked_of_unused hSteady''.atRest (hAccount ▸ Account.unused_restart _)

/-- Every session that can be reached leaves a trail. -/
theorem Steady.exists_trail (hSteady : s.Steady t) (hReach : s.Reaches s') :
    ∃ trail, Trail s trail s' := by
  induction hReach with
  | start => exact ⟨_, .start⟩
  | @step u v r hReach hAllows hStep ih =>
    obtain ⟨trail, hTrail⟩ := ih
    by_cases hInit : r = .init
    · subst hInit
      exact ⟨_, .init hTrail hStep⟩
    · obtain ⟨w, hSteady'⟩ := hSteady.reaches hReach
      have hPasses := hSteady'.passes hAllows hInit hStep
      generalize hBetween : u.heap.between r = run at hPasses
      cases hPasses with
      | straight _ => exact ⟨_, .step hTrail hAllows hInit hBetween hStep⟩
      | midway _ _ _ => exact ⟨_, .step hTrail hAllows hInit hBetween hStep⟩

theorem tracked_of_built {supply : S} {config : Config} {h : Heap S} (hConfig : config.Roomy)
    (hBuild : Heap.ofArena (.fresh supply) config = .ok (.ok h)) (hTrail : Trail ⟨h, []⟩ trail s) :
    s.Tracked trail := by
  obtain ⟨t, hStart⟩ := steady_of_built hConfig hBuild
  have hUnused : h.account.Unused :=
    Heap.ofArena_account hConfig hBuild ▸ Account.unused_restart _
  exact (hTrail.tracked hStart (tracked_of_unused hStart.atRest hUnused)).2

theorem balanced_of_reaches {supply : S} {config : Config} {h : Heap S} (hConfig : config.Roomy)
    (hBuild : Heap.ofArena (.fresh supply) config = .ok (.ok h)) (hReach : Reaches ⟨h, []⟩ s) :
    s.heap.account.Balanced := by
  obtain ⟨t, hStart⟩ := steady_of_built hConfig hBuild
  obtain ⟨trail, hTrail⟩ := hStart.exists_trail hReach
  exact (tracked_of_built hConfig hBuild hTrail).balanced

/-- Since the last initialisation the metrics have been those of the blocks all along, and the peak
is the most that the live bytes have been, within a reallocation too. -/
theorem reaches_metered {supply : S} {config : Config} {h : Heap S}
    (hValid : config.validate = .ok ()) (hChunk : 32 ≤ config.chunkSize)
    (hWord : config.chunkSize < 2 ^ 64)
    (hBuild : Heap.ofArena (.fresh supply) config = .ok (.ok h)) (hReach : Reaches ⟨h, []⟩ s) :
    (∃ trail, Trail ⟨h, []⟩ trail s) ∧ ∀ trail, Trail ⟨h, []⟩ trail s →
      s.heap ∈ trail ∧ (∀ g ∈ trail, g.Metered) ∧
        IsGreatest (Heap.levels trail) s.heap.metrics.peakLiveBytes := by
  have hConfig : config.Roomy := ⟨hValid, hChunk, hWord⟩
  obtain ⟨t, hStart⟩ := steady_of_built hConfig hBuild
  refine ⟨hStart.exists_trail hReach, fun trail hTrail => ?_⟩
  have hTracked := tracked_of_built hConfig hBuild hTrail
  exact ⟨hTrail.mem, hTracked.metered, hTracked.peak⟩

theorem reaches_metered_move : ∃ (h : Heap Cap) (s : Session Cap) (trail : List (Heap Cap)),
    Trail ⟨h, []⟩ trail s ∧ (∀ g ∈ trail, g.Metered) ∧ s.heap.metrics.liveBytes = 48 ∧
      ∃ g ∈ trail, g.metrics.liveBytes = 80 := by
  have hMoved : rehearse (⟨240⟩ : Cap) { chunkSize := 96 } [.allocate 8, .reallocate (some 144) 16]
      (fun s => s.heap.metrics.liveBytes == 48 && s.heap.metrics.peakLiveBytes == 80) = true := by
    decide +kernel
  obtain ⟨h, s, hBuild, hPermits, hRun, hCheck⟩ := exists_of_rehearse hMoved
  rw [Bool.and_eq_true, beq_iff_eq, beq_iff_eq] at hCheck
  obtain ⟨hLive, hPeak⟩ := hCheck
  obtain ⟨⟨trail, hTrail⟩, hTrails⟩ :=
    reaches_metered rfl (by decide) (by decide) hBuild (Reaches.start.run hPermits hRun)
  obtain ⟨_, hMetered, hGreatest⟩ := hTrails trail hTrail
  exact ⟨h, s, trail, hTrail, hMetered, hLive, hPeak ▸ hGreatest.1⟩

end Session

end TaggedHeap
