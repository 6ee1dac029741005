import Heapscope.Command.Basic
import Heapscope.Command.World
import Heapscope.Replay.Frame
import Heapscope.Run.Timing
import Heapscope.Wire.Call
import Heapscope.Wire.Run
import Heapscope.Wire.Workload
import Heapscope.Workload.Schedule

/-!
# Performing commands

What each command reads, prints and writes, and how it fails.  The first thing that goes wrong ends
a command; `Command.perform` is the whole of it.
-/

namespace Heapscope

namespace Command

/-! ## Parts -/

/-- A time that is given in milliseconds. -/
def timeArgument (name : String) (ms : Binary64) : Session Micros :=
  match Micros.ofMillis? ms with
  | some t => .finish t
  | none => .fail { message := s!"invalid --{name} {ms.text}" }

/-- The times that a workload leaves open. -/
def compilerConfig (a : CompilerArguments) : Session CompilerConfig := do
  let interval ← timeArgument "interval" a.interval
  let offset ← timeArgument "start-offset" a.offset
  let config : CompilerConfig := { interval, offset }
  match config.validate with
  | .ok () => return config
  | .error e => .fail { message := e.message }

/-- The message of a text that could not be read. -/
def readMessage (e : ReadError) : String := e.message?.getD "not of the expected form"

/-- The calls of the workload in a file. -/
def compileFile (path : String) (config : CompilerConfig) : Session (List Call) := do
  let content ← Session.readFile "reading workload " path
  let nodes ← Session.orFail ("parsing " ++ path)
    (fun e => ["malformed workload: " ++ readMessage e])
    (Node.listOfText (content.text?.getD ""))
  Session.orFail ("compiling " ++ path) (fun (e : CompileError) => [e.message])
    (Heapscope.compile config nodes)

/-- The allocator in a file. -/
def loadFile (path : String) (options : GuestOptions) : Session (Guest × Machine) := do
  let content ← Session.readFile "reading allocator " path
  Session.orFail ("loading " ++ path)
    (fun e => [e.message?.getD "the module cannot be used"]) (content.source.load options)

/-- The palette of color names; the default one if there are none. -/
def paletteArgument (names : List String) : Session Palette :=
  let color := fun name => match Attribute.color? name with
    | some c => Session.finish c
    | none => .fail { message := "invalid palette color '" ++ name ++ "'" }
  if names.isEmpty then .finish .default else Palette.mk <$> names.mapM color

/-- The line of a message of an allocator. -/
def logLine (r : LogRecord) : String :=
  s!"[t{r.thread} @{r.time.text}] {r.entry.level.name}: {r.entry.message}\n"

/-- Prints the messages of an allocator. -/
def printLogs (logs : List LogRecord) : Session Unit :=
  logs.forM fun r => Session.say .errors (logLine r)

/-- How many calls there were, before the time that they took. -/
def countsText (r : Run) : String :=
  let mallocs := r.trace.count "malloc"
  let frees := r.trace.count "free"
  let notes := r.trace.count "annotate"
  s!"{r.trace.calls.length} calls ({mallocs} malloc, {frees} free, {notes} annotate), "
    ++ s!"{r.logs.length} log entries in "

/-- What memory looks like after a run. -/
def memoryLine (r : Run) : String :=
  match r.peak with
  | some peak =>
    s!"peak address {peak}, {r.occupied} bytes in {r.live.size} blocks still allocated\n"
  | none => "nothing was allocated\n"

/-! ## Commands -/

def performCompile (workload : String) (times : CompilerArguments) (output : Option String) :
    Session Unit := do
  let calls ← compileFile workload (← compilerConfig times)
  Session.emit output (Call.fileText calls)

def performRun (allocator workload : String) (options : GuestOptions) (times : CompilerArguments)
    (palette : List String) (output : Option String) : Session Unit := do
  let calls ← compileFile workload (← compilerConfig times)
  let palette ← paletteArgument palette
  let (guest, machine) ← loadFile allocator options
  let before ← Session.now
  match (Heapscope.run (guest.host options) palette machine calls).1 with
  | .error e =>
    printLogs e.logs
    .fail { message := "allocator run failed", causes := e.message :: e.chain }
  | .ok r =>
    let after ← Session.now
    printLogs r.logs
    Session.emit output r.trace.pretty
    Session.print .errors
      [.text (countsText r), .elapsed (toString ((after - before) / 1000)), .text "µs\n"] .finish
    Session.say .errors (memoryLine r)

/-- Makes a timing pass: the number of operations, and the nanoseconds that they took. -/
def timingPass (allocator : String) (options : GuestOptions) (calls : List Call) (pass : Nat) :
    Session (Nat × Nat) := do
  let (guest, machine) ← loadFile allocator options
  let before ← Session.now
  let ops ← Session.orFail s!"timing pass {pass}" (fun (e : HostError) => [e.message])
    (timing (guest.host options) machine calls).1
  let after ← Session.now
  let nanos := after - before
  let millis := (seconds nanos * Binary64.ofNat 1000).textPlaces 3
  let rate := (opsPerSecond ops nanos).textPlaces 0
  Session.print .output
    [.text s!"pass {pass}: {ops} ops in ", .elapsed millis, .text "ms (", .rate rate,
      .text " ops/s)\n"] .finish
  return (ops, nanos)

def performTime (allocator workload : String) (options : GuestOptions)
    (times : CompilerArguments) (passes : Nat) : Session Unit := do
  if passes = 0 then
    .fail { message := "--repeat must be at least 1" }
  else
    let calls ← compileFile workload (← compilerConfig times)
    let results ← (List.range passes).mapM (timingPass allocator options calls)
    let ops := results.foldl (fun n r => n + r.1) 0
    let total := results.foldl (fun s r => s + seconds r.2) Binary64.zero
    if 1 < passes ∧ Binary64.zero.lt total then
      Session.print .output
        [.text "mean: ", .rate ((Binary64.ofNat ops / total).textPlaces 0), .text " ops/s\n"]
        .finish

/-- The content of a trace file.  A directory can be opened, but there is nothing to read in it. -/
def openTrace (path : String) : Session FileContent :=
  .read path fun
    | .error .isDirectory =>
      .fail ⟨"reading trace " ++ path, ["trace codec: " ++ FileError.isDirectory.message]⟩
    | r => Session.orFail ("opening " ++ path) (fun (e : FileError) => [e.message]) r

def performReplay (path : String) (capacity width : UInt32) (progress : Option Binary64)
    (step : Bool) : Session Unit := do
  let content ← openTrace path
  let causes := fun (e : Trace.Fault) => match e with
    | .unreadable e => ["trace codec: " ++ readMessage e]
    | .invalid e => [(ReplayError.invalid e).message, e.message]
  let trace ← Session.orFail ("reading trace " ++ path) causes
    (Trace.ofText (content.text?.getD ""))
  let timeline ← Session.orFail "trace does not fit the requested capacity"
    (fun (e : ReplayError) => e.message :: e.cause?.toList)
    (Timeline.start trace (Canvas.blank capacity))
  if step then (timeline.frames width.toNat).forM (Session.say .output)
  else
    match timeline.setProgress (progress.getD .one) with
    | .error e => .fail { message := e.message, causes := e.cause?.toList }
    | .ok timeline => Session.say .output (timeline.frame width.toNat)

/-- Performs a command. -/
def perform : Command → Session Unit
  | compile workload times output => performCompile workload times output
  | run allocator workload options times palette output =>
    performRun allocator workload options times palette output
  | time allocator workload options times passes =>
    performTime allocator workload options times passes
  | replay trace capacity width progress step =>
    performReplay trace capacity width progress step

end Command

/-! ## The program -/

/-- The name and the version that the program tells. -/
def versionText (command : Option String) : String :=
  "heapreel" ++ (command.elim "" fun name => "-" ++ name) ++ " 0.1.0\n"

/-- What the program does with its arguments, and the number that it ends with. -/
def program (arguments : List String) : Session UInt32 :=
  match Command.read arguments with
  | .ok command => do
    command.perform
    return 0
  | .error .usage => do
    Session.say .errors (Command.helpText none)
    return 2
  | .error (.version command) => do
    Session.say .output (versionText command)
    return 0
  | .error (.help command) => do
    Session.say .output (Command.helpText command)
    return 0

/-- Runs the program on files that are held in a map: the number that it ends with, and the world
afterwards.  A failure is reported, and ends it with one. -/
def runProgram (arguments : List String) (w : World) : UInt32 × World :=
  match (program arguments).play w with
  | (.ok code, w) => (code, w)
  | (.error f, w) => (1, w.print .errors [.text f.text])

end Heapscope
