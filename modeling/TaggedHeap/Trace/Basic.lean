import TaggedHeap.Audit.Violation
import TaggedHeap.Heap.Error

/-!
# Traces

A trace is a list of operations on payloads that are named by ids. It starts with four numbers; each
of its other lines is one operation.

    a <id> <size>    allocate
    r <id> <size>    reallocate
    f <id>           free
-/

namespace TaggedHeap

namespace Trace

/-- An operation on the payload with an id. -/
inductive Op where
  | allocate (id size : Nat)
  | reallocate (id size : Nat)
  | free (id : Nat)
  deriving DecidableEq, Repr

def Op.id : Op → Nat
  | allocate id _ | reallocate id _ | free id => id

/-- What is wrong with the text of a trace. -/
structure Reason where
  text : String
  deriving DecidableEq, Repr

namespace Reason

def headerIncomplete : Reason := ⟨"trace header is incomplete"⟩

def number : Reason := ⟨"expected a number"⟩

def id : Reason := ⟨"expected an id"⟩

def idOutOfRange : Reason := ⟨"id is out of range"⟩

def size : Reason := ⟨"expected a size"⟩

def unknownOperation : Reason := ⟨"unknown operation"⟩

def operationCount : Reason := ⟨"operation count does not match the header"⟩

end Reason

/-- Why a trace cannot be read or replayed. Lines are counted from one; line zero stands for the
text as a whole. -/
inductive Failure where
  /-- The text is not a trace. -/
  | malformed (line : Nat) (reason : Reason)
  /-- The operation needs a payload that the trace has not allocated or has given up. -/
  | unknownId (line id : Nat)
  /-- A payload has changed behind the back of the trace. -/
  | corrupted (line id : Nat)
  /-- The heap breaks one of its rules after the operation. -/
  | inconsistent (line : Nat) (violation : Violation)
  /-- The heap refuses the operation. -/
  | refused (line : Nat) (error : HeapError)
  deriving DecidableEq, Repr

namespace Failure

def line : Failure → Nat
  | malformed line _ | unknownId line _ | corrupted line _ | inconsistent line _
  | refused line _ => line

def message : Failure → String
  | malformed line reason => s!"line {line}: {reason.text}"
  | unknownId line id => s!"line {line}: id {id} is not live"
  | corrupted line id => s!"line {line}: payload of id {id} was overwritten"
  | inconsistent line violation => s!"line {line}: heap check failed: {violation.message}"
  | refused line error => s!"line {line}: {error.message}"

end Failure

end Trace

structure Trace where
  suggestedHeapSize : Nat
  /-- Every id in the trace is below this. -/
  numIds : Nat
  weight : Nat
  /-- The operations, each with the line it is on. -/
  ops : List (Nat × Trace.Op)
  deriving DecidableEq, Repr

end TaggedHeap
