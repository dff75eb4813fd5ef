import TaggedHeap.Proofs.Kinship

/-! # Settings last

No operation changes the settings of a heap, or the cap of its arena.
-/

namespace TaggedHeap

variable {h : Heap Cap} {cap : Cap} {config : Config}

/-- The arena has this cap, and the heap these settings. -/
structure Heap.Set (h : Heap Cap) (cap : Cap) (config : Config) : Prop where
  supply : h.arena.supply = cap
  config : h.config = config

namespace Heap

theorem Set.growArena (hSet : h.Set cap config) (increment : Nat) :
    (h.growArena increment).2.Set cap config := by
  refine ⟨Eq.trans ?_ hSet.supply, hSet.config⟩
  obtain ⟨⟨memory, supply, lowBound⟩, _, _, _⟩ := h
  simp only [Heap.growArena, Arena.grow, Supply.request]
  cases supply.admits memory.size increment with
  | error error => rfl
  | ok _ => cases memory.extend? increment <;> rfl

/-- What operations keep of one heap they keep as a relation of the heap to itself. -/
theorem kinship_set (cap : Cap) (config : Config) :
    Kinship fun h g : Heap Cap => g = h ∧ h.Set cap config where
  memory := by
    rintro h _ ⟨rfl, _⟩
    rfl
  chunk := by
    rintro h _ ⟨rfl, _⟩
    rfl
  withMemory := by
    rintro h _ ⟨rfl, hSet⟩ m
    exact ⟨rfl, hSet.supply, hSet.config⟩
  tally := by
    rintro h _ ⟨rfl, hSet⟩ change
    exact ⟨rfl, hSet.supply, hSet.config⟩
  log := by
    rintro h _ ⟨rfl, hSet⟩ event
    exact ⟨rfl, hSet.supply, hSet.config⟩
  growArena := by
    rintro h _ ⟨rfl, hSet⟩ increment
    exact ⟨_, _, _, rfl, rfl, rfl, hSet.growArena increment⟩

theorem set_of_built (hBuild : ofArena (.fresh cap) config = .ok (.ok h)) :
    h.Set cap config := by
  have hInit := (kinship_set cap config).init (h := ⟨.fresh cap, config, {}, #[]⟩) ⟨rfl, rfl, rfl⟩
  obtain ⟨_, _, _, hSet⟩ := hInit.of_ok ((ofArena_eq_ok_iff (validate_of_built hBuild)).mp hBuild)
  exact hSet

end Heap

theorem Session.Reaches.set {s u : Session Cap} (hReach : Reaches s u)
    (hSet : s.heap.Set cap config) : u.heap.Set cap config := by
  induction hReach with
  | start => exact hSet
  | step _ _ hStep ih =>
    obtain ⟨answer, hRun⟩ := perform_of_step hStep
    obtain ⟨_, _, _, hSet'⟩ := ((Heap.kinship_set cap config).perform ⟨rfl, ih⟩ _).of_ok hRun
    exact hSet'

end TaggedHeap
