import TaggedHeap.Block.Walk
import TaggedHeap.Heap.Arena
import TaggedHeap.Heap.Config
import TaggedHeap.Heap.Event
import TaggedHeap.Heap.Metrics

/-!
# Heaps

A heap is an arena with its settings, its metrics and its journal. An operation on a heap is a
function that returns its answer, which may be a refusal, together with the heap after it. It is
`Checked`, because it works on raw memory.
-/

namespace TaggedHeap

/-- A heap over an arena with supply `S`. -/
structure Heap (S : Type) where
  arena : Arena S
  config : Config
  metrics : Metrics := {}
  /-- What has happened so far, the oldest event first. -/
  journal : Array Event := #[]

/-- The answer of an operation and the heap after it. -/
abbrev Outcome (S α : Type) := Except HeapError α × Heap S

namespace Heap

variable {S : Type}

def memory (h : Heap S) : Memory := h.arena.memory

def currentSize (h : Heap S) : Nat := h.arena.size

def lowBound (h : Heap S) : Nat := h.arena.lowBound

def highBound (h : Heap S) : Nat := h.arena.highBound

def blocks (h : Heap S) : List Block := h.memory.blocks

def tally (h : Heap S) (change : Metrics → Metrics) : Heap S :=
  { h with metrics := change h.metrics }

def log (h : Heap S) (event : Event) : Heap S :=
  { h with journal := h.journal.push event }

/-- Runs a step that changes the memory and has a result. -/
@[inline] def update {α : Type} (h : Heap S) (step : Memory → Checked (α × Memory)) :
    Checked (α × Heap S) :=
  match h with
  | ⟨⟨memory, supply, lowBound⟩, config, metrics, journal⟩ => do
    let (result, memory) ← step memory
    return (result, ⟨⟨memory, supply, lowBound⟩, config, metrics, journal⟩)

/-- Runs a step that changes the memory. -/
@[inline] def edit (h : Heap S) (step : Memory → Checked Memory) : Checked (Heap S) :=
  match h with
  | ⟨⟨memory, supply, lowBound⟩, config, metrics, journal⟩ => do
    let memory ← step memory
    return ⟨⟨memory, supply, lowBound⟩, config, metrics, journal⟩

def withMemory (h : Heap S) (m : Memory) : Heap S :=
  { h with arena := { h.arena with memory := m } }

@[simp] theorem memory_withMemory (h : Heap S) (m : Memory) : (h.withMemory m).memory = m := rfl

@[simp] theorem memory_tally (h : Heap S) (change : Metrics → Metrics) :
    (h.tally change).memory = h.memory :=
  rfl

@[simp] theorem memory_log (h : Heap S) (event : Event) : (h.log event).memory = h.memory := rfl

theorem update_eq_ok {α : Type} {h : Heap S} {f : Memory → Checked (α × Memory)} {a : α}
    {m : Memory} (run : f h.memory = .ok (a, m)) : h.update f = .ok (a, h.withMemory m) := by
  obtain ⟨⟨memory, supply, lowBound⟩, config, metrics, journal⟩ := h
  change (f memory >>= _) = _
  rw [show f memory = .ok (a, m) from run]
  rfl

theorem edit_eq_ok {h : Heap S} {f : Memory → Checked Memory} {m : Memory}
    (run : f h.memory = .ok m) : h.edit f = .ok (h.withMemory m) := by
  obtain ⟨⟨memory, supply, lowBound⟩, config, metrics, journal⟩ := h
  change (f memory >>= _) = _
  rw [show f memory = .ok m from run]
  rfl

def growArena [Supply S] (h : Heap S) (increment : Nat) : Outcome S Nat :=
  match h with
  | ⟨arena, config, metrics, journal⟩ =>
    let (answer, arena) := arena.grow increment
    (answer, ⟨arena, config, metrics, journal⟩)

end Heap

end TaggedHeap
