import TaggedHeap.Text.Blank
import TaggedHeap.Text.Lines
import TaggedHeap.Text.Numeral
import TaggedHeap.Trace.Basic

/-!
# Reading traces

Blank lines are skipped, but counted. The first four of the other lines hold one number each: a
suggested heap size, the number of ids, the number of operations and a weight. The first line that
is wrong decides the failure; what concerns no single line is reported for line zero.
-/

namespace TaggedHeap.Trace

/-- A line that is not blank: its number, and its text without the blanks at its ends. -/
abbrev Entry := Nat × List Char

/-- The lines of a text that are not blank. -/
def entries (text : String) : List Entry :=
  (((Text.lines text.toList).zipIdx 1).map fun (line, number) => (number, Text.trim line)).filter
    fun entry => !entry.2.isEmpty

/-- The number that a word of a line spells. -/
def number (line : Nat) (word : Option (List Char)) (reason : Reason) : Except Failure Nat :=
  match word.bind Text.numeral? with
  | some n => .ok n
  | none => .error (.malformed line reason)

/-- The number on the first of the given lines, and the lines after it. -/
def headerNumber : List Entry → Except Failure (Nat × List Entry)
  | [] => .error (.malformed 0 .headerIncomplete)
  | (line, text) :: rest => do
    let n ← number line (some text) .number
    return (n, rest)

/-- The operation on a line; words beyond those it needs are ignored. -/
def operation (numIds : Nat) (entry : Entry) : Except Failure (Nat × Op) := do
  let (line, text) := entry
  let words := Text.words text
  let id ← number line words[1]? .id
  if numIds ≤ id then
    throw (.malformed line .idOutOfRange)
  match words.head? with
  | some ['a'] => return (line, .allocate id (← number line words[2]? .size))
  | some ['r'] => return (line, .reallocate id (← number line words[2]? .size))
  | some ['f'] => return (line, .free id)
  | _ => throw (.malformed line .unknownOperation)

/-- The trace that some entries spell. -/
def ofEntries (es : List Entry) : Except Failure Trace := do
  let (suggestedHeapSize, rest) ← headerNumber es
  let (numIds, rest) ← headerNumber rest
  let (numOps, rest) ← headerNumber rest
  let (weight, rest) ← headerNumber rest
  let ops ← rest.mapM (operation numIds)
  if ops.length ≠ numOps then
    throw (.malformed 0 .operationCount)
  return { suggestedHeapSize, numIds, weight, ops }

def parse (text : String) : Except Failure Trace := ofEntries (entries text)

end TaggedHeap.Trace
