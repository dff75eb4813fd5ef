import TaggedHeap.Heap.Basic
import TaggedHeap.Space.Format

/-!
# Growing and building heaps
-/

namespace TaggedHeap.Heap

variable {S : Type} [Supply S]

/-- Grows the arena by at least `size` bytes and merges them, as a free block, with the last block
if that is free. Returns the free block at the end of the arena. An arena larger than the largest
block is never asked for. -/
def extend (h : Heap S) (size : Nat) : Checked (Outcome S Nat) := do
  let size ← Layout.alignUp size
  if Layout.maxBlock < h.currentSize + size then
    return (.error .outOfMemory, h)
  match h.growArena size with
  | (.error error, h) => return (.error error, h)
  | (.ok start, h) =>
    let (block, h) ← h.update (·.annex start size)
    let h := h.tally .growth
    let arenaSize := h.currentSize
    let h := h.log (.grew size arenaSize)
    let (merged, h) ← h.update (·.coalesce block)
    return (.ok merged, h)

/-- Makes sure that the arena can be formatted: an empty one grows to the bare layout. -/
def prepare (h : Heap S) : Outcome S Unit :=
  let size := h.currentSize
  if size = 0 then
    match h.growArena Layout.bareSize with
    | (.error error, h) => (.error error, h)
    | (.ok _, h) => (.ok (), h)
  else if size < Layout.bareSize ∨ size % Layout.alignment ≠ 0 then (.error .corruptArena, h)
  else (.ok (), h)

/-- Formats the arena, resets the metrics and grows by one chunk. An arena that is already in use
starts over: all its space becomes one free block, and no pointer into it is valid any more. If the
growth is refused, the rest has still happened. -/
def init (h : Heap S) : Checked (Outcome S Unit) := do
  match h.prepare with
  | (.error error, h) => return (.error error, h)
  | (.ok (), h) =>
    let (reclaimed, h) ← h.update (·.format)
    let h := h.tally fun _ => {}
    let chunk := h.config.chunkSize
    match ← h.extend chunk with
    | (.error error, h) => return (.error error, h)
    | (.ok _, h) =>
      let arenaSize := h.currentSize
      return (.ok (), h.log (.initialized arenaSize reclaimed))

/-- A heap on a given arena. -/
def ofArena (arena : Arena S) (config : Config) : Checked (Except HeapError (Heap S)) := do
  match config.validate with
  | .error error => return .error error
  | .ok () =>
    match ← init { arena, config } with
    | (.error error, _) => return .error error
    | (.ok (), h) => return .ok h

/-- A heap on an arena of its own, capped as the configuration says. -/
def ofConfig (config : Config) : Checked (Except HeapError (Heap Cap)) :=
  match config.validate with
  | .error error => .ok (.error error)
  | .ok () => ofArena (.fresh ⟨config.maxHeapSize⟩) config

end TaggedHeap.Heap
