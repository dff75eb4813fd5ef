import TaggedHeap.Proofs.Operations
import TaggedHeap.Proofs.Views

/-! # Plans

A plan is a heap without its bytes: the blocks, the chains, and what a heap keeps outside of its
arena. On plans the operations are policy alone: which block is taken and what is left of it, what
is merged, what is counted and what is logged. A heap that follows a plan answers as the plan does,
and follows the plan that the operation leaves.
-/

namespace TaggedHeap

namespace Shape

/-- The blocks before a block. -/
def before (s : Shape) (b : Block) : List Block := s.blocks.takeWhile (· ≠ b)

/-- The blocks after a block. -/
def after (s : Shape) (b : Block) : List Block := (s.blocks.dropWhile (· ≠ b)).tail

theorem blocks_eq {s : Shape} {b : Block} (hb : b ∈ s.blocks) :
    s.blocks = s.before b ++ b :: s.after b := by
  obtain ⟨blocks, chains⟩ := s
  unfold before after
  dsimp only at hb ⊢
  induction blocks with
  | nil => cases hb
  | cons c blocks ih =>
    rcases eq_or_ne c b with rfl | hNe
    · simp
    · have hMem : b ∈ blocks := (List.mem_cons.mp hb).resolve_left hNe.symm
      rw [List.takeWhile_cons, List.dropWhile_cons, decide_eq_true hNe, if_pos rfl, if_pos rfl,
        List.cons_append, ← ih hMem]

/-- The shape in which a free block has been used for a request. -/
def take (s : Shape) (b : Block) (size : Nat) : Shape :=
  carve (s.before b) b (s.after b) s.chains size

/-- The shape in which an allocated block has become free. -/
def giveBack (s : Shape) (b : Block) : Shape :=
  settle (s.before b) ⟨b.offset, b.size, false⟩ (s.after b) s.chains

/-- The shape in which `size` bytes have been added at an offset. -/
def append (s : Shape) (offset size : Nat) : Shape :=
  settle s.blocks ⟨offset, size, false⟩ [] s.chains

/-- The allocated block behind a pointer. -/
def owner (s : Shape) (pointer : Nat) : Except HeapError Block :=
  match s.blockAt (pointer - 4) with
  | some b => if b.allocated then .ok b else .error .doubleFree
  | none => .error .invalidPointer

end Shape

/-- A heap without its bytes. -/
structure Plan (S : Type) where
  shape : Shape
  size : Nat
  supply : S
  config : Config
  metrics : Metrics
  journal : Array Event

namespace Plan

variable {S : Type}

/-- The pointer is that of a block, or cannot be: it is out of range or misaligned. -/
def Names (p : Plan S) (pointer : Nat) : Prop :=
  (∃ b ∈ p.shape.blocks, pointer = b.offset + 4) ∨ pointer < 144 ∨ p.size ≤ pointer + 4 ∨
    pointer % 8 ≠ 0

def reshape (p : Plan S) (shape : Shape) : Plan S := { p with shape }

def tally (p : Plan S) (change : Metrics → Metrics) : Plan S :=
  { p with metrics := change p.metrics }

def log (p : Plan S) (event : Event) : Plan S :=
  { p with journal := p.journal.push event }

def release (p : Plan S) (pointer : Nat) : Except HeapError Unit × Plan S :=
  match p.shape.owner pointer with
  | .error error => (.error error, p.log (.releaseRejected pointer error))
  | .ok b =>
    (.ok (), ((p.reshape (p.shape.giveBack b)).tally (·.release (b.size - 8))).log
      (.released pointer b.size))

section Allocation

variable [Supply S]

/-- Grows the arena, and merges what is new with the last block if that is free. -/
def extend (p : Plan S) (size : Nat) : Except HeapError Block × Plan S :=
  if 2 ^ 31 < p.size + size then (.error .outOfMemory, p)
  else match Supply.request p.supply p.size size with
    | (.error error, supply) => (.error error, { p with supply })
    | (.ok (), supply) =>
      (.ok (absorbed p.shape.blocks ⟨p.size - 4, size, false⟩ []),
        ({ p with
          shape := p.shape.append (p.size - 4) size
          size := p.size + size
          supply }.tally .growth).log (.grew size (p.size + size)))

def provide (p : Plan S) (size : Nat) : Except HeapError Block × Plan S :=
  match p.shape.fit size with
  | some b => (.ok b, p)
  | none => p.extend (max size p.config.chunkSize)

/-- What a refused allocation leaves; asking for nothing is no failure. -/
def refuse (p : Plan S) (size : Nat) : HeapError → Plan S
  | .zeroSize => p
  | error => (p.tally .failure).log (.allocationFailed size error)

def tryAllocate (p : Plan S) (size : Nat) : Except HeapError Nat × Plan S :=
  if size = 0 then (.error .zeroSize, p)
  else match Heap.blockSizeFor size with
    | .error error => (.error error, p.refuse size error)
    | .ok blockSize =>
      match p.provide blockSize with
      | (.error error, p) => (.error error, p.refuse size error)
      | (.ok b, p) =>
        (.ok (b.offset + 4),
          ((p.reshape (p.shape.take b blockSize)).tally
            (·.allocation ((b.taken blockSize).size - 8))).log
            (.allocated size (b.taken blockSize).size (b.offset + 4)))

def tryReallocate (p : Plan S) (pointer : Option Nat) (size : Nat) :
    Except HeapError (Option Nat) × Plan S :=
  match pointer with
  | none =>
    match p.tryAllocate size with
    | (.ok new, p) => (.ok (some new), p)
    | (.error .zeroSize, p) => (.ok none, p)
    | (.error error, p) => (.error error, p)
  | some old =>
    if size = 0 then
      match p.release old with
      | (.ok (), p) => (.ok none, p)
      | (.error error, p) => (.error error, p)
    else
      match p.shape.owner old with
      | .error error => (.error error, p)
      | .ok b =>
        match p.tryAllocate size with
        | (.error error, p) => (.error error, p)
        | (.ok new, p) =>
          match p.release old with
          | (.error error, p) => (.error error, p)
          | (.ok (), p) =>
            (.ok (some new), (p.tally .reallocation).log (.moved old new (min size (b.size - 8))))

/-- All the space unused and nothing counted. -/
def formatted (p : Plan S) : Plan S :=
  (p.reshape (.unused (p.size - 144))).tally fun _ => {}

def init (p : Plan S) : Except HeapError Unit × Plan S :=
  match p.formatted.extend p.config.chunkSize with
  | (.error error, p) => (.error error, p)
  | (.ok _, p') => (.ok (), p'.log (.initialized p'.size (p.size - 144)))

end Allocation

end Plan

namespace Heap

variable {S : Type}

/-- The bytes of the heap show the shape of the plan, and all else is the same. -/
structure Follows (h : Heap S) (p : Plan S) : Prop where
  atRest : h.memory.AtRest p.shape
  size : h.memory.size = p.size
  supply : h.arena.supply = p.supply
  config : h.config = p.config
  metrics : h.metrics = p.metrics
  journal : h.journal = p.journal

/-- An operation gives an answer and leaves a heap that follows a plan. -/
def Realizes {α : Type} (run : Checked (Outcome S α)) (answer : Except HeapError α) (p : Plan S) :
    Prop :=
  ∃ h', run = .ok (answer, h') ∧ h'.Follows p

end Heap

end TaggedHeap
