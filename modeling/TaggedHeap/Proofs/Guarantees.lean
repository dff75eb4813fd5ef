import TaggedHeap.Proofs.Building
import TaggedHeap.Proofs.Session

/-! # What the user of a heap can rely on

A session that begins with a new heap on an empty arena is steady, whatever the supply answers, if
the chunk makes a block. So after any number of requests the memory is sound, the next request runs
into no fault, and each live pointer has its bytes to itself.
-/

namespace TaggedHeap

namespace Heap

variable {S : Type} [Supply S] {supply : S} {config : Config} {h : Heap S}

theorem ofArena_atRest (hConfig : config.Roomy)
    (hBuild : ofArena (.fresh supply) config = .ok (.ok h)) :
    h.config = config ∧ ∃ t, h.memory.AtRest t ∧ ∀ b ∈ t.blocks, b.allocated = false := by
  have hInit := (ofArena_eq_ok_iff hConfig.valid).mp hBuild
  have hEmpty : Heap.currentSize ⟨.fresh supply, config, {}, #[]⟩ = 0 := rfl
  rcases hGrow : (Arena.fresh supply).grow 144 with ⟨error | start, a⟩
  · rw [init_of_unprepared (prepare_of_refused hEmpty hGrow)] at hInit
    cases hInit
  · have hSize : a.size = 144 := Memory.size_extend? (Arena.grow_ok hGrow).2.1
    obtain ⟨answer, h', t, hRun, hSame, hRest, hFree⟩ := init_atRest
      (prepare_of_granted hEmpty hGrow) hConfig (Or.inl hSize) (congrArg (· % 8) hSize)
      (le_trans (le_of_eq hSize) (by decide))
    rw [hRun] at hInit
    cases hInit
    exact ⟨hSame, t, hRest, hFree⟩

theorem ofArena_total (supply : S) (hConfig : config.Roomy) :
    ∃ answer, ofArena (.fresh supply) config = .ok answer := by
  have hEmpty : Heap.currentSize ⟨.fresh supply, config, {}, #[]⟩ = 0 := rfl
  rw [ofArena_eq hConfig.valid]
  rcases hGrow : (Arena.fresh supply).grow 144 with ⟨error | start, a⟩
  · rw [init_of_unprepared (prepare_of_refused hEmpty hGrow)]
    exact ⟨.error error, rfl⟩
  · have hSize : a.size = 144 := Memory.size_extend? (Arena.grow_ok hGrow).2.1
    obtain ⟨answer, h', t, hRun, _⟩ := init_atRest
      (prepare_of_granted hEmpty hGrow) hConfig (Or.inl hSize) (congrArg (· % 8) hSize)
      (le_trans (le_of_eq hSize) (by decide))
    rw [hRun]
    cases answer with
    | error error => exact ⟨.error error, rfl⟩
    | ok _ => exact ⟨.ok h', rfl⟩

theorem ofArena_of_granted {next : S} (hConfig : config.Roomy)
    (hSmall : 144 + config.chunkSize ≤ 2 ^ 31)
    (hLayout : Supply.request supply 0 144 = (.ok (), next))
    (hChunk : (Supply.request next 144 config.chunkSize).1 = .ok ()) :
    ∃ h, ofArena (.fresh supply) config = .ok (.ok h) := by
  have hMod := (Config.validate_eq_ok_iff.mp hConfig.valid).1.2
  have hMin := hConfig.chunk
  have hEmpty : Heap.currentSize ⟨.fresh supply, config, {}, #[]⟩ = 0 := rfl
  obtain ⟨a, hGrow⟩ := Arena.grow_of_granted (a := .fresh supply) (congrArg Prod.fst hLayout)
    (show 0 + 144 < 2 ^ 63 by decide)
  obtain ⟨_, hExtend, _, hRequest⟩ := Arena.grow_ok hGrow
  have hSize : a.memory.size = 144 := Memory.size_extend? hExtend
  have hSupply : next = a.supply := congrArg Prod.snd (hLayout.symm.trans hRequest)
  obtain ⟨n, hFormat, hSizeN, hShows⟩ := Memory.format_shows (m := a.memory) (by omega) (by omega)
    (by omega) (by omega)
  rw [hSize] at hSizeN hShows
  obtain ⟨b, hGrow'⟩ := Arena.grow_of_granted (a := ⟨n, a.supply, a.lowBound⟩)
    (show (Supply.request a.supply n.size config.chunkSize).1 = .ok () by
      rw [← hSupply, hSizeN, hChunk])
    (show n.size + config.chunkSize < 2 ^ 63 by omega)
  obtain ⟨p, hRun, _⟩ := extend_unused (h := formatted ⟨a, config, {}, #[]⟩ n) hShows
    (show n.size = 144 + (144 - 144) by omega) (show 8 ≤ config.chunkSize by omega) hMod
    (show n.size + config.chunkSize ≤ 2 ^ 31 by omega) (by omega) hGrow'
  exact ⟨_, (ofArena_eq_ok_iff hConfig.valid).mpr
    (init_of_extended (prepare_of_granted hEmpty hGrow) hFormat hRun)⟩

end Heap

namespace Session

variable {S : Type} [Supply S] {supply : S} {config : Config} {h : Heap S} {s u : Session S}

theorem steady_of_built (hConfig : config.Roomy)
    (hBuild : Heap.ofArena (.fresh supply) config = .ok (.ok h)) : ∃ t, Steady ⟨h, []⟩ t := by
  obtain ⟨hSame, t, hRest, hFree⟩ := Heap.ofArena_atRest hConfig hBuild
  refine ⟨t, hRest, hSame ▸ hConfig, List.nodup_nil, fun g hg => absurd hg List.not_mem_nil, ?_⟩
  intro b hb hAllocated
  rw [hFree b hb] at hAllocated
  cases hAllocated

/-- After any requests the memory is sound, verification confirms it, and whatever is asked next
runs into no fault. -/
theorem reaches_sound (hValid : config.validate = .ok ()) (hChunk : 32 ≤ config.chunkSize)
    (hWord : config.chunkSize < 2 ^ 64)
    (hBuild : Heap.ofArena (.fresh supply) config = .ok (.ok h)) (hReach : Reaches ⟨h, []⟩ s) :
    (∃ t, s.heap.memory.Sound t) ∧ s.heap.verify = .ok (.ok ()) ∧
      ∀ r, s.Allows r → ∃ s', s.step r = .ok s' := by
  obtain ⟨t, hStart⟩ := steady_of_built ⟨hValid, hChunk, hWord⟩ hBuild
  obtain ⟨u, hSteady⟩ := hStart.reaches hReach
  have hSound := hSteady.atRest.sound
  refine ⟨⟨u, hSound⟩, Memory.verify_eq_ok_iff.mpr ⟨u, hSound.toOrderly⟩, ?_⟩
  intro r hAllows
  obtain ⟨s', _, hRun, _⟩ := hSteady.step hAllows
  exact ⟨s', hRun⟩

theorem reaches_sound_allocate : ∃ (h : Heap Cap) (s : Session Cap),
    Session.step ⟨h, []⟩ (.allocate 100) = .ok s ∧ (∃ t, s.heap.memory.Sound t) ∧
      s.heap.verify = .ok (.ok ()) := by
  have hConfig : Config.Roomy {} := ⟨rfl, by decide, by decide⟩
  have hBuild : ∃ h, Heap.ofArena (.fresh (⟨20971520⟩ : Cap)) {} = .ok (.ok h) :=
    Heap.ofArena_of_granted hConfig (by decide) rfl rfl
  obtain ⟨h, hBuild⟩ := hBuild
  obtain ⟨t, hSteady⟩ := steady_of_built hConfig hBuild
  obtain ⟨s, _, hStep, _⟩ := hSteady.step (r := .allocate 100) trivial
  obtain ⟨hSound, hVerify, _⟩ :=
    reaches_sound rfl (by decide) (by decide) hBuild
      (.step (r := .allocate 100) .start trivial hStep)
  exact ⟨h, s, hStep, hSound, hVerify⟩

/-- Carries out requests one after the other. -/
def run (s : Session S) : List Request → Checked (Session S)
  | [] => return s
  | r :: requests => do (← s.step r).run requests

theorem run_singleton {r : Request} : s.run [r] = .ok u ↔ s.step r = .ok u := by
  rw [run, bind_eq_ok_iff]
  constructor
  · rintro ⟨v, hStep, hEnd⟩
    cases hEnd
    exact hStep
  · intro hStep
    exact ⟨u, hStep, rfl⟩

/-- Each request is allowed by the time that it is made. -/
def Permits (s : Session S) : List Request → Prop
  | [] => True
  | r :: requests => s.Allows r ∧ ∀ s', s.step r = .ok s' → s'.Permits requests

theorem permits_cons {r : Request} {requests : List Request} (hStep : s.step r = .ok u) :
    s.Permits (r :: requests) ↔ s.Allows r ∧ u.Permits requests := by
  refine and_congr_right fun _ => ⟨fun hRest => hRest u hStep, ?_⟩
  intro hRest s' hStep'
  rw [hStep] at hStep'
  cases hStep'
  exact hRest

instance decidablePermits (s : Session S) : (requests : List Request) →
    Decidable (s.Permits requests)
  | [] => .isTrue trivial
  | r :: requests =>
    match hStep : s.step r with
    | .ok u =>
      have := decidablePermits u requests
      decidable_of_iff _ (permits_cons hStep).symm
    | .error _ =>
      decidable_of_iff (s.Allows r)
        ⟨fun hAllows => ⟨hAllows, fun _ hStep' => nomatch hStep.symm.trans hStep'⟩, And.left⟩

theorem Reaches.run {t : Session S} {requests : List Request} (hReach : s.Reaches t)
    (hPermits : t.Permits requests) (hRun : t.run requests = .ok u) : s.Reaches u := by
  induction requests generalizing t with
  | nil =>
    cases hRun
    exact hReach
  | cons r requests ih =>
    rw [Session.run, bind_eq_ok_iff] at hRun
    obtain ⟨t', hStep, hRest⟩ := hRun
    exact ih (hReach.step hPermits.1 hStep) (hPermits.2 t' hStep) hRest

/-- Builds a heap and carries out requests on it, if all of them are permitted, to check what comes of
that. -/
def rehearse (supply : S) (config : Config) (requests : List Request)
    (check : Session S → Bool) : Bool :=
  match Heap.ofArena (.fresh supply) config with
  | .ok (.ok h) => decide (Permits ⟨h, []⟩ requests) && match run ⟨h, []⟩ requests with
    | .ok s => check s
    | .error _ => false
  | _ => false

theorem exists_of_rehearse {supply : S} {requests : List Request} {check : Session S → Bool}
    (h : rehearse supply config requests check = true) : ∃ h s,
      Heap.ofArena (.fresh supply) config = .ok (.ok h) ∧ Permits ⟨h, []⟩ requests ∧
        run ⟨h, []⟩ requests = .ok s ∧ check s = true := by
  unfold rehearse at h
  split at h
  · rename_i heap hBuild
    obtain ⟨hPermits, hCheck⟩ := Bool.and_eq_true_iff.mp h
    split at hCheck
    · rename_i s hRun
      exact ⟨heap, s, hBuild, of_decide_eq_true hPermits, hRun, hCheck⟩
    · cases hCheck
  · cases h

theorem Steady.run {t : Shape} {requests : List Request} (hSteady : s.Steady t)
    (hPermits : s.Permits requests) : ∃ s' u, s.run requests = .ok s' ∧ s'.Steady u := by
  induction requests generalizing s t with
  | nil => exact ⟨s, t, rfl, hSteady⟩
  | cons r requests ih =>
    obtain ⟨hAllows, hRest⟩ := hPermits
    obtain ⟨s₁, u₁, hStep, hSteady₁⟩ := hSteady.step hAllows
    obtain ⟨s', u, hRun, hSteady'⟩ := ih hSteady₁ (hRest s₁ hStep)
    refine ⟨s', u, ?_, hSteady'⟩
    rw [Session.run, hStep, ok_bind, hRun]

/-- Building a heap ends, and so does every run on it, without a fault: no access leaves the memory,
no machine word wraps or loses bits, and no search is endless. Afterwards any number may be tried as
a pointer. -/
theorem run_faultless (supply : S) (hValid : config.validate = .ok ())
    (hChunk : 32 ≤ config.chunkSize) (hWord : config.chunkSize < 2 ^ 64) :
    ∃ answer, Heap.ofArena (.fresh supply) config = .ok answer ∧
      ∀ h, answer = .ok h → ∀ requests, Permits ⟨h, []⟩ requests →
        ∃ s, run ⟨h, []⟩ requests = .ok s ∧ ∀ p, ∃ owner, s.heap.memory.blockOf p = .ok owner := by
  obtain ⟨answer, hBuild⟩ := Heap.ofArena_total supply ⟨hValid, hChunk, hWord⟩
  refine ⟨answer, hBuild, ?_⟩
  rintro h rfl requests hPermits
  obtain ⟨t, hStart⟩ := steady_of_built ⟨hValid, hChunk, hWord⟩ hBuild
  obtain ⟨s, u, hRun, hSteady⟩ := hStart.run hPermits
  have hLow := hSteady.atRest.shows.le_size
  exact ⟨s, hRun, Memory.blockOf_total (by omega)⟩

theorem run_faultless_release : ∃ (h : Heap Cap) (s : Session Cap),
    Heap.ofArena (.fresh (⟨240⟩ : Cap)) { chunkSize := 96 } = .ok (.ok h) ∧
      run ⟨h, []⟩ [.allocate 8, .release 144, .init, .tryAllocate (2 ^ 64 - 1)] = .ok s := by
  have hValid : Config.validate { chunkSize := 96 } = .ok () := rfl
  obtain ⟨answer, hBuild, hRuns⟩ :=
    run_faultless (⟨240⟩ : Cap) hValid (by decide) (by decide)
  have hFirst : (match Heap.ofArena (.fresh (⟨240⟩ : Cap)) { chunkSize := 96 } with
      | .ok (.ok h) => match Session.step ⟨h, []⟩ (.allocate 8) with
        | .ok s => s.live.map Grant.pointer == [144]
        | .error _ => false
      | _ => false) = true := by
    decide +kernel
  rw [hBuild] at hFirst
  cases answer with
  | error _ => cases hFirst
  | ok h =>
    have hPermits : Permits ⟨h, []⟩
        [.allocate 8, .release 144, .init, .tryAllocate (2 ^ 64 - 1)] := by
      refine ⟨trivial, fun s hStep => ⟨Or.inl ?_, fun _ _ =>
        ⟨trivial, fun _ _ => ⟨trivial, fun _ _ => trivial⟩⟩⟩⟩
      dsimp only at hFirst
      rw [hStep] at hFirst
      rw [← List.mem_map, eq_of_beq hFirst]
      exact List.mem_singleton_self 144
    obtain ⟨s, hRun, _⟩ := hRuns h rfl _ hPermits
    exact ⟨h, s, hBuild, hRun⟩

end Session

/-- What a live pointer is good for: aligned bytes inside the arena, as many as were there when it
was handed out, which hold what was last written to them. -/
structure Grant.Serves {S : Type} (g : Grant) (h : Heap S) : Prop where
  usable : h.usableSize g.pointer = .ok (.ok g.usable)
  requested : g.requested ≤ g.usable
  aligned : g.pointer % 8 = 0
  low : 144 ≤ g.pointer
  high : g.pointer + g.usable + 8 ≤ h.currentSize
  payload : ∃ data, h.payload g.pointer = .ok (.ok data) ∧ data.size = g.usable ∧
    ∀ j, (hj : j < data.size) → ∀ x ∈ g.written j, data[j] = x

theorem Grant.Holds.serves {S : Type} {h : Heap S} {t : Shape} {b : Block} {g : Grant}
    (hHolds : g.Holds h.memory b) (hRest : h.memory.AtRest t) (hb : b ∈ t.blocks)
    (hAllocated : b.allocated = true) : g.Serves h := by
  have hPointer := hHolds.pointer
  have hUsable := hHolds.usable
  have hBounds := hRest.shows.bounds hb
  have hSize : h.currentSize = h.memory.size := rfl
  obtain ⟨data, hRun, hWidth, hBytes⟩ := Heap.payload_atRest hRest hb hAllocated
  refine ⟨?_, hHolds.requested, by omega, by omega, by omega, data, hPointer ▸ hRun, by omega, ?_⟩
  · rw [hPointer, Heap.usableSize_atRest hRest hb hAllocated, ← hUsable, Nat.add_sub_cancel]
  · intro j hj x hx
    rw [hBytes j hj, ← hPointer]
    exact hHolds.written j (by omega) x hx

def Grant.Apart (f g : Grant) : Prop :=
  f.pointer + f.usable ≤ g.pointer ∨ g.pointer + g.usable ≤ f.pointer

namespace Session

variable {S : Type} {s : Session S} {t : Shape} {g : Grant}

namespace Steady

theorem serves (hSteady : s.Steady t) (hg : g ∈ s.live) : g.Serves s.heap := by
  obtain ⟨b, hb, hAllocated, hHolds⟩ := hSteady.grant g hg
  exact hHolds.serves hSteady.atRest hb hAllocated

theorem pairwise_apart (hSteady : s.Steady t) : s.live.Pairwise Grant.Apart := by
  refine (List.pairwise_map.mp hSteady.nodup).imp_of_mem fun {f g} hf hg hNe => ?_
  obtain ⟨b, hb, _, hHoldsF⟩ := hSteady.grant f hf
  obtain ⟨c, hc, _, hHoldsG⟩ := hSteady.grant g hg
  have hF := hHoldsF.pointer
  have hG := hHoldsG.pointer
  have hUsableF := hHoldsF.usable
  have hUsableG := hHoldsG.usable
  unfold Grant.Apart
  rcases hSteady.atRest.shows.tiling.eq_or_apart hb hc with rfl | hApart
  · exact absurd (hF.trans hG.symm) hNe
  · omega

end Steady

/-- After any requests the live pointers are good for what was asked, and lie apart. -/
theorem reaches_serves [Supply S] {supply : S} {config : Config} {h : Heap S}
    (hValid : config.validate = .ok ()) (hChunk : 32 ≤ config.chunkSize)
    (hWord : config.chunkSize < 2 ^ 64)
    (hBuild : Heap.ofArena (.fresh supply) config = .ok (.ok h)) (hReach : Reaches ⟨h, []⟩ s) :
    s.live.Pairwise Grant.Apart ∧ ∀ g ∈ s.live, g.Serves s.heap := by
  obtain ⟨t, hStart⟩ := steady_of_built ⟨hValid, hChunk, hWord⟩ hBuild
  obtain ⟨u, hSteady⟩ := hStart.reaches hReach
  exact ⟨hSteady.pairwise_apart, fun g hg => hSteady.serves hg⟩

theorem reaches_serves_pair : ∃ s : Session Cap, s.live.map Grant.pointer = [184, 144] ∧
    s.live.Pairwise Grant.Apart ∧ ∀ g ∈ s.live, g.Serves s.heap := by
  have hRun : (match Heap.ofArena (.fresh (⟨240⟩ : Cap)) { chunkSize := 96 } with
      | .ok (.ok h) => match Session.step ⟨h, []⟩ (.allocate 8) with
        | .ok s => match s.step (.allocate 8) with
          | .ok u => u.live.map Grant.pointer == [184, 144]
          | .error _ => false
        | .error _ => false
      | _ => false) = true := by
    decide +kernel
  split at hRun
  · rename_i h hBuild
    split at hRun
    · rename_i s hFirst
      split at hRun
      · rename_i u hSecond
        have hReach : Reaches ⟨h, []⟩ u := .step (r := .allocate 8)
          (.step (r := .allocate 8) .start trivial hFirst) trivial hSecond
        exact ⟨u, eq_of_beq hRun, reaches_serves rfl (by decide) (by decide) hBuild hReach⟩
      · cases hRun
    · cases hRun
  · cases hRun

end Session

end TaggedHeap
