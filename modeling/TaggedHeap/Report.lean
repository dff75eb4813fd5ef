import TaggedHeap.Heap.Growth
import TaggedHeap.Text.Fixed
import TaggedHeap.Trace.Reader
import TaggedHeap.Trace.Replay

/-!
# Reports on trace files

Each trace file is replayed on a fresh heap of its own, and a line says how well the heap was used.
A file that cannot be read or replayed has no line and makes the exit code 1, but does not keep the
other files from being replayed. Only if there is no room for a heap, the command ends there.
-/

namespace TaggedHeap.Report

/-- What a command leaves. -/
structure Output where
  stdout : String := ""
  stderr : String := ""
  code : Nat := 0
  deriving DecidableEq, Repr

/-- The argument that turns the verification of the heap off, wherever it stands. -/
def noCheck : String := "--no-check"

def usage : String := "usage: replay [--no-check] <trace>...\n"

def paths (args : List String) : List String := args.filter (· ≠ noCheck)

def config (args : List String) : Config := { checkOnReplay := !args.contains noCheck }

/-- The line for a replayed file. -/
def line (path : String) (stats : Trace.Stats) : String :=
  Text.alignLeft 32 path ' ' ++ " " ++
    Text.alignRight 6 (toString stats.ops) ' ' ++ " ops  " ++
    Text.alignRight 10 (toString stats.heapSize) ' ' ++ " bytes  " ++
    Text.alignRight 5 (Text.fixed 1 (stats.utilization * 100)) ' ' ++ "% util\n"

/-- What comes of a file. -/
inductive Verdict where
  | replayed (stats : Trace.Stats)
  /-- The file cannot be read, is no trace, or cannot be replayed. -/
  | failed
  /-- There is no heap to replay the file on. -/
  | noHeap
  deriving DecidableEq, Repr

def Verdict.ofAnswer : Except Trace.Failure Trace.Stats → Verdict
  | .ok stats => .replayed stats
  | .error _ => .failed

/-- Replays the trace with the given bytes on a fresh heap. -/
def replayBytes (config : Config) (bytes : ByteArray) : Checked Verdict := do
  match String.fromUTF8? bytes with
  | none => return .failed
  | some text =>
    match ← Heap.ofConfig config with
    | .error _ => return .noHeap
    | .ok heap =>
      match Trace.parse text with
      | .error _ => return .failed
      | .ok trace =>
        let (answer, _) ← trace.replay heap
        return .ofAnswer answer

/-- Replays the file at a path, if it can be read. -/
def replayFile (config : Config) (files : String → Option ByteArray) (path : String) :
    Checked Verdict :=
  match files path with
  | none => .ok .failed
  | some bytes => replayBytes config bytes

/-- Replays the files at some paths one after the other. The first one for which no heap can be set
up is the last. -/
def replayAll (config : Config) (files : String → Option ByteArray) : List String → Checked Output
  | [] => return {}
  | path :: rest => do
    match ← replayFile config files path with
    | .noHeap => return { code := 1 }
    | .failed =>
      let output ← replayAll config files rest
      return { output with code := 1 }
    | .replayed stats =>
      let output ← replayAll config files rest
      return { output with stdout := line path stats ++ output.stdout }

/-- The command with the given texts as its arguments, over the files that can be read. -/
def run (files : String → Option ByteArray) (args : List String) : Checked Output :=
  let paths := paths args
  if paths.isEmpty then .ok { stderr := usage, code := 1 }
  else replayAll (config args) files paths

/-- The text of an argument. -/
def decode (arg : ByteArray) : Checked String :=
  match String.fromUTF8? arg with
  | some text => .ok text
  | none => .error .notText

/-- The command with the given arguments. One of them that is no text stops it before it looks at
any file. -/
def command (files : String → Option ByteArray) (args : List ByteArray) : Checked Output := do
  run files (← args.mapM decode)

end TaggedHeap.Report
