/-!
# Violations

The rules of a heap that its bytes can break, each with the place where it is broken.
-/

namespace TaggedHeap

/-- A broken rule of the heap. -/
inductive Violation where
  /-- The memory is too short, or a word of the prologue is wrong. -/
  | badPrologue
  | badEpilogue (offset : Nat)
  | badBlockSize (block size : Nat)
  | blockOutOfBounds (block size : Nat)
  | tagMismatch (block header footer : Nat)
  | adjacentFree (first second : Nat)
  | allocatedInList (block bucket : Nat)
  /-- A free block is in the chain of a bucket that is not the one for its size. -/
  | wrongBucket (block bucket : Nat) (expected : Option Nat)
  /-- A chain leads to no free block or a second time to the same one, or the link back does not
  lead to where the chain came from. -/
  | brokenLink (block bucket : Nat)
  /-- Some free blocks are in no chain. -/
  | unlistedFree (listed walked : Nat)
  deriving DecidableEq, Repr

namespace Violation

/-- A word in hexadecimal digits, after `0x`. -/
def hexWord (word : Nat) : String :=
  "0x" ++ String.ofList (Nat.toDigits 16 word)

def bucketName : Option Nat → String
  | some bucket => s!"Some({bucket})"
  | none => "None"

def message : Violation → String
  | badPrologue => "prologue block is damaged"
  | badEpilogue offset => s!"epilogue at {offset} is damaged"
  | badBlockSize block size => s!"block at {block} has invalid size {size}"
  | blockOutOfBounds block size => s!"block at {block} of size {size} runs past the arena"
  | tagMismatch block header footer =>
    s!"block at {block} has header {hexWord header} but footer {hexWord footer}"
  | adjacentFree first second => s!"free blocks at {first} and {second} were not coalesced"
  | allocatedInList block bucket => s!"allocated block at {block} is listed in bucket {bucket}"
  | wrongBucket block bucket expected =>
    s!"block at {block} sits in bucket {bucket} but belongs in {bucketName expected}"
  | brokenLink block bucket => s!"links around block at {block} in bucket {bucket} disagree"
  | unlistedFree listed walked =>
    s!"{listed} free blocks are listed but the heap holds {walked}"

end Violation

end TaggedHeap
