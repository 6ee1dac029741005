import Heapscope.Command.Help
import Heapscope.Number.Literal
import Heapscope.Guest.Options

/-!
# Commands

The four things that can be asked for on the command line: to compile a workload, to run one against
an allocator, to time it, and to replay a recorded trace.

* `Command.read` -- the command that arguments ask for;
* `Command.helpText` -- what is told about a command.
-/

namespace Heapscope

/-- The times that a workload leaves open, in milliseconds. -/
structure CompilerArguments where
  interval : Binary64
  offset : Binary64
deriving DecidableEq, Repr

/-- What is asked for. -/
inductive Command where
  /-- Compiles a workload into its calls. -/
  | compile (workload : String) (times : CompilerArguments) (output : Option String)
  /-- Runs a workload against an allocator, and writes the trace. -/
  | run (allocator workload : String) (options : GuestOptions) (times : CompilerArguments)
      (palette : List String) (output : Option String)
  /-- Times a workload against an allocator. -/
  | time (allocator workload : String) (options : GuestOptions) (times : CompilerArguments)
      (passes : Nat)
  /-- Shows a trace: every step, or the frame at some progress. -/
  | replay (trace : String) (capacity width : UInt32) (progress : Option Binary64) (step : Bool)

namespace Command

/-! ## Values -/

/-- A number of 32 bits; it may have a sign. -/
def word? (s : String) : Option UInt32 :=
  -- a minus sign is possible in front of zero only
  let digits := match s.toList with
    | '-' :: cs => (digitsValue? 10 cs).bind fun n => if n = 0 then some 0 else none
    | cs => wholeLiteral? 10 (UInt32.size - 1) cs
  digits.map UInt32.ofNat

/-- A number of 64 bits. -/
def longWord? (s : String) : Option UInt64 :=
  (wholeLiteral? 10 (UInt64.size - 1) s.toList).map UInt64.ofNat

def decimal? (s : String) : Option Binary64 := Binary64.ofLiteral? s.toList

/-- A setting: its name, which is not empty, and behind the first equals sign its value. -/
def setting? (s : String) : Option (String × String) :=
  let name := s.toList.takeWhile fun c => c ≠ '='
  match s.toList.dropWhile fun c => c ≠ '=' with
  | _ :: value => if name.isEmpty then none else some (.ofList name, .ofList value)
  | [] => none

/-- The parts of a text between commas. -/
def commaSeparated (s : String) : List String := s.splitOn ","

/-! ## Grammars -/

def verboseOption : OptionSpec :=
  { long := "verbose", short := some 'v', kind := .counter
    about := "Increase verbosity (-v, -vv, -vvv). `RUST_LOG` overrides" }

def helpOption : OptionSpec :=
  { long := "help", short := some 'h', kind := .help, about := "Print help" }

def versionOption : OptionSpec :=
  { long := "version", short := some 'V', kind := .version, about := "Print version" }

/-- The options of a command: those that every command has stand behind the first of its own and at
the end. -/
def withCommon (own : List OptionSpec) : List OptionSpec :=
  own.take 1 ++ verboseOption :: own.drop 1 ++ [helpOption, versionOption]

/-- An option with a number of 32 bits. -/
def wordOption (long valueName about default : String) (short : Option Char := none) : OptionSpec :=
  { long, short, valueName, about, default, kind := .single, accepts := fun s => (word? s).isSome }

/-- An option with a decimal number. -/
def decimalOption (long valueName about : String) (default : Option String)
    (short : Option Char := none) : OptionSpec :=
  { long, short, valueName, about, default, kind := .single
    accepts := fun s => (decimal? s).isSome }

def outputOption (about : String) : OptionSpec :=
  { long := "output", short := some 'o', kind := .single, valueName := "OUTPUT", about
    accepts := fun s => s ≠ "" }

def compilerOptions : List OptionSpec :=
  [decimalOption "interval" "INTERVAL" "Default operation length in milliseconds" "500",
    decimalOption "start-offset" "START_OFFSET"
      "Time of each thread's first operation in milliseconds" "0.001"]

def guestOptions : List OptionSpec :=
  [wordOption "capacity" "CAPACITY" "Size of the simulated address space in bytes" "256" 'c',
    { long := "fuel", kind := .single, valueName := "FUEL"
      about := "Instruction budget per allocator call"
      accepts := fun s => (longWord? s).isSome },
    { long := "debug", kind := .flag, about := "Echo allocator log messages as they happen" },
    { long := "option", short := some 'O', kind := .many, valueName := "OPTIONS"
      about := "Allocator-specific option, `key=value` (repeatable)"
      accepts := fun s => (setting? s).isSome }]

def paletteOption : OptionSpec :=
  { long := "palette", kind := .many, valueName := "PALETTE"
    about := "Palette for allocations without a color (e.g. `#4c8bf5,0xf5a04c`)" }

def frameOptions : List OptionSpec :=
  [wordOption "capacity" "CAPACITY" "Number of cells in the rendered memory" "256" 'c',
    wordOption "width" "WIDTH" "Cells per rendered row" "32",
    decimalOption "progress" "PROGRESS" "Render the single frame at this progress, in [0, 1]" none
      'p',
    { long := "step", kind := .flag, about := "Render one frame per event, stepping with `next`" }]

def allocatorOperand : OperandSpec := ⟨"ALLOCATOR", "Allocator module (.wat or .wasm)", false⟩

def workloadOperand : OperandSpec := ⟨"WORKLOAD", "Workload JSON file", false⟩

def traceOperand : OperandSpec := ⟨"TRACE", "Trace JSON file, as written by `run`", false⟩

/-- What is read in front of the name of a command. -/
def headGrammar : Grammar where
  command := none
  about := "Command-line driver for heapreel: compile, run, time and replay allocator workloads"
  options := withCommon []
  operands := []

/-- The grammars of the commands. -/
def grammars : List Grammar :=
  [{ command := "compile"
     about := "Compile a workload into its time-stamped call list"
     options := withCommon
       (compilerOptions ++ [outputOption "Write the calls here instead of stdout"])
     operands := [workloadOperand] },
    { command := "run"
      about := "Execute a workload against an allocator and record the trace"
      options := withCommon (guestOptions ++ compilerOptions
        ++ [paletteOption, outputOption "Write the trace here instead of stdout"])
      operands := [allocatorOperand, workloadOperand] },
    { command := "time"
      about := "Measure raw allocator throughput over a workload"
      options := withCommon (guestOptions ++ compilerOptions
        ++ [wordOption "repeat" "REPEAT" "Number of passes, each in a freshly loaded sandbox" "1"])
      operands := [allocatorOperand, workloadOperand] },
    { command := "replay"
      about := "Render a recorded trace as text frames"
      options := withCommon frameOptions
      operands := [traceOperand] }]

/-- What is told about the command that tells about commands. -/
def helpGrammar : Grammar where
  command := "help"
  about := "Print this message or the help of the given subcommand(s)"
  options := []
  operands := [⟨"COMMAND", "Print help for the subcommand(s)", true⟩]

/-- The grammar of a command. -/
def grammar? (name : String) : Option Grammar := grammars.find? fun g => g.command = some name

/-- The help on a command, or on the whole program. -/
def helpText (command : Option String) : String :=
  let commands := grammars ++ [helpGrammar]
  match commands.find? fun g => g.command = command with
  | some g => g.help "heapreel" []
  | none => headGrammar.help "heapreel" commands

/-! ## Reading -/

/-- The value of an option, or what stands for an absent one. -/
def valueOr {α : Type} (a : Arguments) (long : String) (read? : String → Option α) (default : α) :
    α :=
  ((a.value? long).bind read?).getD default

def compilerArguments (a : Arguments) : CompilerArguments where
  interval := valueOr a "interval" decimal? (.ofNat 500)
  offset := valueOr a "start-offset" decimal? (.ofRatio false 1 1000)

/-- The options of the guest; a repeated setting replaces the value in place. -/
def guestArguments (a : Arguments) : GuestOptions where
  capacity := valueOr a "capacity" word? 256
  debug := a.has "debug"
  fuel := (a.value? "fuel").bind longWord?
  extra := .ofList ((a.values "option").filterMap setting?)

/-- The command of a name with its arguments. -/
def ofArguments? (name : String) (a : Arguments) : Option Command :=
  match name, a.operands with
  | "compile", [workload] => some (.compile workload (compilerArguments a) (a.value? "output"))
  | "run", [allocator, workload] =>
    some (.run allocator workload (guestArguments a) (compilerArguments a)
      ((a.values "palette").flatMap commaSeparated) (a.value? "output"))
  | "time", [allocator, workload] =>
    some (.time allocator workload (guestArguments a) (compilerArguments a)
      (valueOr a "repeat" word? 1).toNat)
  | "replay", [trace] =>
    if a.has "progress" ∧ a.has "step" then none
    else some (.replay trace (valueOr a "capacity" word? 256) (valueOr a "width" word? 32)
      ((a.value? "progress").bind decimal?) (a.has "step"))
  | _, _ => none

/-- What arguments behind the name of the help command ask for: the name of a command may follow,
but nothing else. -/
def readHelp : List String → Halt
  | [] => .help none
  | [name] => if name = "help" ∨ (grammar? name).isSome then .help (some name) else .usage
  | _ => .usage

/-- The command that arguments ask for. -/
def read (arguments : List String) : Except Halt Command := do
  let (name, rest) ← headGrammar.readHead {} arguments
  if name = "help" then throw (readHelp rest)
  match grammar? name with
  | none => throw .usage
  | some g => (ofArguments? name (← g.read rest)).elim (throw .usage) pure

end Command

end Heapscope
