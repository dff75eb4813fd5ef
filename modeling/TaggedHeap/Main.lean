import TaggedHeap.Report

/-!
# The command line

Reads the files that the arguments name, and prints the report on them.
-/

/-- The bytes of a file, unless it cannot be read. -/
def TaggedHeap.Report.readFile? (path : String) : IO (Option ByteArray) := do
  try
    return some (← IO.FS.readBinFile path)
  catch _ =>
    return none

def main (args : List String) : IO UInt32 := do
  let mut files : List (String × ByteArray) := []
  for path in TaggedHeap.Report.paths args do
    if let some bytes ← TaggedHeap.Report.readFile? path then
      files := (path, bytes) :: files
  match TaggedHeap.Report.command (fun path => files.lookup path) (args.map String.toUTF8) with
  | .ok output =>
    IO.print output.stdout
    IO.eprint output.stderr
    return output.code.toUInt32
  | .error .notText =>
    IO.eprintln "an argument is no text"
    return 101
  | .error _ =>
    IO.eprintln "the heap is damaged"
    return 101
