import TaggedHeap.Proofs.Kinship
import TaggedHeap.Proofs.Replay
import TaggedHeap.Report

/-! # Files are reported on one by one

No operation looks at the setting that has heaps verified during a replay, and the verification
never finds anything. So the setting shows nowhere, and what is said about a file depends on
nothing but the file.
-/

namespace TaggedHeap

variable {S : Type}

namespace Heap

/-- The heap with the verification during replays turned on or off. -/
def checking (c : Bool) (h : Heap S) : Heap S :=
  { h with config := { h.config with checkOnReplay := c } }

theorem kinship_checking [Supply S] (c : Bool) : Kinship fun h g : Heap S => g = h.checking c where
  memory := by
    rintro h _ rfl
    rfl
  chunk := by
    rintro h _ rfl
    rfl
  withMemory := by
    rintro h _ rfl m
    rfl
  tally := by
    rintro h _ rfl change
    rfl
  log := by
    rintro h _ rfl event
    rfl
  growArena := by
    rintro h _ rfl increment
    exact ⟨_, _, _, rfl, rfl, rfl⟩

variable [Supply S]

theorem ofArena_checking {arena : Arena S} {config : Config} {h : Heap S} (c : Bool)
    (hBuild : ofArena arena config = .ok (.ok h)) :
    ofArena arena { config with checkOnReplay := c } = .ok (.ok (h.checking c)) := by
  have hValid := validate_of_built hBuild
  have hInit := (kinship_checking c).init (h := ⟨arena, config, {}, #[]⟩) rfl
  obtain ⟨_, hRun, rfl⟩ := hInit.of_ok ((ofArena_eq_ok_iff hValid).mp hBuild)
  have hValid' : Config.validate { config with checkOnReplay := c } = .ok () := hValid
  exact (ofArena_eq_ok_iff hValid').mpr hRun

end Heap

namespace Trace.Progress

variable [Supply S] [Supply.Limited S] {old : Memory} {others : List Block} {numIds : Nat}
  {t : Shape} {p : Progress S}

/-- What an operation leaves passes the verification. -/
theorem step_true_of_sound {op : Op} (hSound : p.Sound old others numIds t)
    (hId : op.id < numIds) (line : Nat) : p.step true line op = p.step false line op := by
  rcases apply_ends hSound hId line with
    ⟨failure, q, hRun, _, _⟩ | ⟨q, u, hRun, _, hSound', _⟩
  · rw [step, step, hRun]
    rfl
  · have hVerify : q.notePeak.heap.verify = .ok (.ok ()) :=
      Memory.verify_eq_ok_iff.mpr ⟨u, hSound'.atRest.sound.toOrderly⟩
    rw [step, step, hRun, ok_bind, ok_bind]
    simp only [hVerify, ok_bind, if_true]
    rfl

/-- A run that verifies the heap after each operation takes the course of one that does not. -/
theorem run_true_of_sound {ops : List (Nat × Op)} (hSound : p.Sound old others numIds t)
    (hIds : ∀ entry ∈ ops, entry.2.id < numIds) : p.run true ops = p.run false ops := by
  induction ops generalizing p t with
  | nil => rfl
  | cons entry ops ih =>
    obtain ⟨line, op⟩ := entry
    have hId : op.id < numIds := hIds _ List.mem_cons_self
    rw [run, run, step_true_of_sound hSound hId]
    rcases step_ends hSound hId false line with
      ⟨failure, q, hStep, _, _⟩ | ⟨q, u, hStep, _, hSound', _⟩
    · rw [hStep]
      rfl
    · rw [hStep]
      exact ih hSound' fun entry hEntry => hIds entry (List.mem_cons_of_mem _ hEntry)

end Trace.Progress

section Replay

open Trace.Progress

variable [Supply S] [Supply.Limited S] {t : Shape} {h : Heap S}

/-- The answer of a replay does not depend on whether the heap is verified on the way. -/
theorem Trace.replay_checking {trace : Trace} (hSteady : Session.Steady ⟨h, []⟩ t)
    (hIds : ∀ entry ∈ trace.ops, entry.2.id < trace.numIds) :
    ∃ answer, ∀ c, ∃ h', trace.replay (h.checking c) = .ok (answer, h') := by
  have hChecking : Session.Steady ⟨h.checking true, []⟩ t :=
    ⟨hSteady.atRest, ⟨hSteady.config.valid, hSteady.config.chunk, hSteady.config.word⟩,
      hSteady.nodup, hSteady.grant, hSteady.block⟩
  obtain ⟨answer, q, _, hEnd, _⟩ := run_accounts false (hSteady.starts trace.numIds) hIds
  have hRun (c : Bool) : ∃ q', run c { heap := h.checking c } trace.ops = .ok (answer, q') ∧
      Beside (fun h g => g = h.checking c) q q' := by
    have hStart : Beside (fun h g => g = h.checking c) { heap := h } { heap := h.checking c } :=
      .intro rfl
    obtain ⟨q', hFalse, hBeside⟩ :=
      (hStart.run (Heap.kinship_checking c) false trace.ops).of_ok hEnd
    refine ⟨q', ?_, hBeside⟩
    cases c with
    | false => exact hFalse
    | true => exact (run_true_of_sound (hChecking.starts trace.numIds) hIds).trans hFalse
  have hReplay (c : Bool) : ∃ h', trace.replay (h.checking c) = .ok (answer.map fun _ =>
      ⟨trace.ops.length, q.peak, q.heap.currentSize⟩, h') := by
    obtain ⟨q', hRun', hBeside⟩ := hRun c
    rw [replay, ensure_eq_ok hIds, ok_bind]
    change ∃ h', run c { heap := h.checking c } trace.ops >>= _ = .ok (_, h')
    rw [hRun']
    obtain ⟨rfl⟩ := hBeside
    cases answer with
    | error failure => exact ⟨_, rfl⟩
    | ok _ => exact ⟨_, rfl⟩
  exact ⟨_, hReplay⟩

/-- There is room for a heap with the default settings. -/
theorem Heap.ofConfig_default :
    ∃ h, (∃ t, Session.Steady ⟨h, []⟩ t) ∧
      ∀ c, ofConfig { checkOnReplay := c } = .ok (.ok (h.checking c)) := by
  have hConfig : Config.Roomy {} := ⟨rfl, by decide, by decide⟩
  have hLayout : Supply.request (⟨20 * 2 ^ 20⟩ : Cap) 0 144 = (.ok (), ⟨20 * 2 ^ 20⟩) := rfl
  obtain ⟨h, hBuild⟩ := ofArena_of_granted hConfig (by decide) hLayout rfl
  refine ⟨h, Session.steady_of_built hConfig hBuild, fun c => ?_⟩
  rw [ofConfig, show Config.validate { checkOnReplay := c } = .ok () by cases c <;> rfl]
  exact ofArena_checking c hBuild

end Replay

namespace Report

variable {files : String → Option ByteArray} {args : List String}

theorem replayBytes_checking (bytes : ByteArray) :
    ∃ verdict, verdict ≠ .noHeap ∧ ∀ c, replayBytes { checkOnReplay := c } bytes = .ok verdict := by
  unfold replayBytes
  cases String.fromUTF8? bytes with
  | none => exact ⟨.failed, nofun, fun c => rfl⟩
  | some text =>
    obtain ⟨h, ⟨t, hSteady⟩, hBuild⟩ := Heap.ofConfig_default
    simp only [hBuild, ok_bind]
    cases hParse : Trace.parse text with
    | error failure => exact ⟨.failed, nofun, fun c => rfl⟩
    | ok trace =>
      obtain ⟨answer, hReplay⟩ := Trace.replay_checking hSteady (Trace.parse_id_lt hParse)
      refine ⟨.ofAnswer answer, by cases answer <;> nofun, fun c => ?_⟩
      obtain ⟨h', hRun⟩ := hReplay c
      simp only [hRun, ok_bind]
      rfl

/-- What comes of a file depends on nothing but the file. -/
theorem replayFile_checking (files : String → Option ByteArray) (path : String) :
    ∃ verdict, verdict ≠ .noHeap ∧
      ∀ c, replayFile { checkOnReplay := c } files path = .ok verdict := by
  unfold replayFile
  cases files path with
  | none => exact ⟨.failed, nofun, fun c => rfl⟩
  | some bytes => exact replayBytes_checking bytes

/-- What comes of the files, with and without the verification. There is a heap for each of them. -/
structure Says (files : String → Option ByteArray) (said : String → Verdict) : Prop where
  heap : ∀ path, said path ≠ .noHeap
  file : ∀ path c, replayFile { checkOnReplay := c } files path = .ok (said path)

theorem exists_says (files : String → Option ByteArray) : ∃ said, Says files said := by
  choose said hHeap hFile using replayFile_checking files
  exact ⟨said, hHeap, hFile⟩

/-- What the command prints for the files at some paths when it is known what comes of each. -/
def gather (said : String → Verdict) : List String → Output
  | [] => {}
  | path :: rest =>
    match said path with
    | .noHeap => { code := 1 }
    | .failed => { gather said rest with code := 1 }
    | .replayed stats =>
      { gather said rest with stdout := line path stats ++ (gather said rest).stdout }

section Gathering

variable {said : String → Verdict} {ps : List String}

theorem replayAll_eq {config : Config}
    (hSaid : ∀ path, replayFile config files path = .ok (said path)) (ps : List String) :
    replayAll config files ps = .ok (gather said ps) := by
  induction ps with
  | nil => rfl
  | cons path rest ih =>
    rw [replayAll, hSaid, ok_bind, gather]
    cases said path with
    | noHeap => rfl
    | failed | replayed stats =>
      dsimp only
      rw [ih]
      rfl

theorem gather_stdout (hSays : Says files said) :
    (gather said ps).stdout = String.join (ps.map fun path => (gather said [path]).stdout) := by
  induction ps with
  | nil => rfl
  | cons path rest ih =>
    rw [List.map_cons, String.join_cons, ← ih, gather, gather, gather]
    cases hVerdict : said path with
    | noHeap => exact absurd hVerdict (hSays.heap path)
    | failed => exact (String.empty_append ..).symm
    | replayed stats => exact congrArg (· ++ _) (String.append_empty ..).symm

theorem gather_code (hSays : Says files said) :
    (gather said ps).code = 0 ↔ ∀ path ∈ ps, (gather said [path]).code = 0 := by
  induction ps with
  | nil => exact iff_of_true rfl nofun
  | cons path rest ih =>
    rw [List.forall_mem_cons, ← ih, gather, gather, gather]
    cases hVerdict : said path with
    | noHeap => exact absurd hVerdict (hSays.heap path)
    | failed => simp
    | replayed stats => exact (and_iff_right rfl).symm

theorem Says.run_eq (hSays : Says files said) (hPaths : paths args ≠ []) :
    run files args = .ok (gather said (paths args)) := by
  rw [run, if_neg (by simpa using hPaths)]
  exact replayAll_eq (fun path => hSays.file path _) (paths args)

end Gathering

section Arguments

variable {raw : List ByteArray} {arg : ByteArray}

theorem fromUTF8?_toUTF8 (text : String) : String.fromUTF8? text.toUTF8 = some text :=
  dif_pos text.isValidUTF8

theorem fromUTF8?_eq_none (hArg : ∀ text : String, text.toUTF8 ≠ arg) :
    String.fromUTF8? arg = none :=
  dif_neg fun hValid => hArg (String.fromUTF8 arg hValid) rfl

theorem decode_toUTF8 (text : String) : decode text.toUTF8 = .ok text := by
  rw [decode, fromUTF8?_toUTF8]

theorem command_texts (files : String → Option ByteArray) (args : List String) :
    command files (args.map String.toUTF8) = run files args := by
  have hDecode : (args.map String.toUTF8).mapM decode = (pure args : Checked (List String)) := by
    rw [List.mapM_map, show decode ∘ String.toUTF8 = pure from funext decode_toUTF8]
    exact List.mapM_pure.trans (congrArg pure (List.map_id args))
  rw [command, hDecode, pure_bind]

theorem mapM_decode_of_notText (hArg : arg ∈ raw) (hText : ∀ text : String, text.toUTF8 ≠ arg) :
    raw.mapM decode = .error .notText := by
  induction raw with
  | nil => cases hArg
  | cons first rest ih =>
    rw [List.mapM_cons, decode]
    cases hFirst : String.fromUTF8? first with
    | none => rfl
    | some text =>
      have hRest : arg ∈ rest := by
        refine (List.mem_cons.mp hArg).resolve_left ?_
        rintro rfl
        cases hFirst.symm.trans (fromUTF8?_eq_none hText)
      dsimp only
      rw [ok_bind, ih hRest]
      rfl

/-- The arguments that name files. -/
def named (raw : List ByteArray) : List ByteArray :=
  raw.filter fun arg => String.fromUTF8? arg ≠ some noCheck

theorem named_texts (args : List String) :
    named (args.map String.toUTF8) = (paths args).map String.toUTF8 := by
  rw [named, paths, List.filter_map]
  refine congrArg _ (List.filter_congr fun arg _ => ?_)
  rw [Function.comp_apply, fromUTF8?_toUTF8]
  exact decide_eq_decide.mpr (not_congr Option.some_inj)

end Arguments

/-- The command says about each file what it says when it is given that file alone, and succeeds if
it is given a file and succeeds on each alone. It makes no difference whether and where the
arguments turn the verification off. -/
structure Separate (files : String → Option ByteArray) (raw : List ByteArray) (out : Output)
    (alone : ByteArray → Output) : Prop where
  run : command files raw = .ok out
  single : ∀ arg ∈ named raw, command files [arg] = .ok (alone arg)
  stdout : out.stdout = String.join ((named raw).map fun arg => (alone arg).stdout)
  code : out.code = 0 ↔ named raw ≠ [] ∧ ∀ arg ∈ named raw, (alone arg).code = 0
  insert : ∀ pre post, raw = pre ++ post → command files (pre ++ noCheck.toUTF8 :: post) = .ok out

section Separation

variable {said : String → Verdict} {args : List String} {path : String}

theorem paths_insert (pre post : List String) :
    paths (pre ++ noCheck :: post) = paths (pre ++ post) := by
  simp [paths]

theorem Says.run_insert (hSays : Says files said) (pre post : List String) :
    run files (pre ++ noCheck :: post) = run files (pre ++ post) := by
  by_cases hPaths : paths (pre ++ post) = []
  · rw [run, run, paths_insert, if_pos (by simp [hPaths]), if_pos (by simp [hPaths])]
  · rw [hSays.run_eq hPaths, hSays.run_eq (by rwa [paths_insert]), paths_insert]

theorem Says.run_single (hSays : Says files said) (hPath : path ∈ paths args) :
    run files [path] = .ok (gather said [path]) := by
  have hPaths : paths [path] = [path] := by simpa [paths] using List.of_mem_filter hPath
  rw [hSays.run_eq (by simp [hPaths]), hPaths]

/-- What is put together from the files is put together from the arguments that name them. -/
theorem Says.separate {out : Output} (hSays : Says files said) (hRun : run files args = .ok out)
    (hStdout : out.stdout = String.join ((paths args).map fun path => (gather said [path]).stdout))
    (hCode : out.code = 0 ↔ paths args ≠ [] ∧ ∀ path ∈ paths args, (gather said [path]).code = 0) :
    Separate files (args.map String.toUTF8) out
      fun arg => gather said [(String.fromUTF8? arg).getD ""] where
  run := (command_texts files args).trans hRun
  single := by
    rw [named_texts, List.forall_mem_map]
    intro path hPath
    rw [fromUTF8?_toUTF8]
    exact (command_texts files [path]).trans (hSays.run_single hPath)
  stdout := by
    rw [named_texts, List.map_map, hStdout]
    exact congrArg String.join (List.map_congr_left fun path _ => by
      rw [Function.comp_apply, fromUTF8?_toUTF8, Option.getD_some])
  code := by
    rw [named_texts, hCode, List.forall_mem_map, Ne, Ne, List.map_eq_nil_iff]
    simp only [fromUTF8?_toUTF8, Option.getD_some]
  insert pre post hSplit := by
    obtain ⟨pre, post, rfl, rfl, rfl⟩ := List.map_eq_append_iff.mp hSplit
    rw [← List.map_cons, ← List.map_append, command_texts, hSays.run_insert, hRun]

/-- Arguments that are texts name files that are reported on one by one; with any other argument the
command stops before it has looked at a file. -/
theorem command_separate (files : String → Option ByteArray) :
    (∀ args : List String, ∃ out alone, Separate files (args.map String.toUTF8) out alone) ∧
      ∀ raw, (∃ arg ∈ raw, ∀ text : String, text.toUTF8 ≠ arg) →
        command files raw = .error .notText := by
  constructor
  · intro args
    obtain ⟨said, hSays⟩ := exists_says files
    by_cases hPaths : paths args = []
    · refine ⟨{ stderr := usage, code := 1 }, _, hSays.separate ?_ ?_ ?_⟩
      · rw [run, if_pos (by simp [hPaths])]
      · rw [hPaths]
        rfl
      · simp [hPaths]
    · refine ⟨_, _, hSays.separate (hSays.run_eq hPaths) (gather_stdout hSays) ?_⟩
      rw [gather_code hSays, and_iff_right hPaths]
  · rintro raw ⟨arg, hArg, hText⟩
    rw [command, mapM_decode_of_notText hArg hText]
    rfl

/-- A single file, with a trace that does nothing. -/
def idle (path : String) : Option ByteArray :=
  if path = "p" then some "0\n0\n0\n1\n".toUTF8 else none

theorem command_idle :
    ∃ out, command idle ["p".toUTF8] = .ok out ∧ out.code = 0 ∧ out.stdout ≠ "" := by
  have hRun : (command idle ["p".toUTF8]).toOption.any
      (fun out => out.code = 0 ∧ out.stdout ≠ "") = true := by decide +kernel
  obtain ⟨out, hOut, hSays⟩ := exists_of_any hRun
  exact ⟨out, hOut, of_decide_eq_true hSays⟩

/-- A byte that begins no character keeps the line about a readable file from being printed. -/
theorem command_not_separate :
    (∃ out, command idle ["p".toUTF8] = .ok out ∧ out.code = 0 ∧ out.stdout ≠ "") ∧
      command idle ["p".toUTF8, ⟨#[0xff]⟩] = .error .notText ∧
      ¬ ∃ out alone, Separate idle ["p".toUTF8, ⟨#[0xff]⟩] out alone := by
  have hStops : command idle ["p".toUTF8, ⟨#[0xff]⟩] = .error .notText := by
    have hDecode : ["p".toUTF8, ⟨#[0xff]⟩].mapM decode = .error .notText := by
      rw [List.mapM_cons, decode_toUTF8, ok_bind]
      rfl
    rw [command, hDecode]
    rfl
  refine ⟨command_idle, hStops, ?_⟩
  rintro ⟨out, alone, hSeparate⟩
  cases hStops.symm.trans hSeparate.run

end Separation

end Report

end TaggedHeap
