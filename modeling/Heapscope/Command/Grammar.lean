/-!
# Command-line arguments

A grammar lists the options and the operands that a command takes, with what is told of them to who
asks for help.  Arguments are read one after the other, and the first that does not fit ends the
reading.

* `--name value`, `--name=value`, `-x value`, `-xvalue`, `-x=value` give a value;
* a value that starts with a minus sign must be attached to its option;
* `-xyz` stands for `-x -y -z` as long as no value is involved;
* everything behind `--` is an operand.

`Grammar.read` gives what was found; a request for the version or for help ends the reading, too.
-/

namespace Heapscope

/-- Whether an option takes a value, and how often it may be given. -/
inductive OptionKind where
  /-- No value, at most once. -/
  | flag
  /-- No value, any number of times. -/
  | counter
  /-- A value, at most once. -/
  | single
  /-- A value, any number of times. -/
  | many
  /-- Asks for the version. -/
  | version
  /-- Asks for help. -/
  | help
deriving DecidableEq, Repr

def OptionKind.takesValue : OptionKind → Bool
  | single | many => true
  | flag | counter | version | help => false

/-- Whether an option may be given again. -/
def OptionKind.repeats : OptionKind → Bool
  | counter | many => true
  | flag | single | version | help => false

/-- An option. -/
structure OptionSpec where
  long : String
  short : Option Char := none
  kind : OptionKind
  /-- What it does. -/
  about : String
  /-- What its value is called. -/
  valueName : String := ""
  /-- The value that it has if it is not given. -/
  default : Option String := none
  /-- The values that it may have. -/
  accepts : String → Bool := fun _ => true

/-- An operand. -/
structure OperandSpec where
  name : String
  /-- What it is. -/
  about : String
  /-- Whether there may be any number of it. -/
  repeats : Bool := false

/-- What ends the reading of arguments before a command is found. -/
inductive Halt where
  /-- The arguments do not fit. -/
  | usage
  /-- The version is asked for, of the program or of one of its commands. -/
  | version (command : Option String)
  /-- Help is asked for, on the program or on one of its commands. -/
  | help (command : Option String)
deriving DecidableEq, Repr

/-- What a command takes. -/
structure Grammar where
  command : Option String
  /-- What the command does. -/
  about : String
  options : List OptionSpec
  operands : List OperandSpec

/-- The arguments found so far. -/
structure Arguments where
  /-- The options by their long names, with their values, in order. -/
  options : List (String × String) := []
  operands : List String := []
  /-- An option whose value is to come. -/
  pending : Option OptionSpec := none
  /-- Whether only operands are to come. -/
  closed : Bool := false

namespace Arguments

/-- Whether an option was given. -/
def has (a : Arguments) (long : String) : Bool := a.options.any fun o => o.1 == long

/-- The values of an option. -/
def values (a : Arguments) (long : String) : List String :=
  a.options.filterMap fun o => if o.1 = long then some o.2 else none

/-- The value of an option. -/
def value? (a : Arguments) (long : String) : Option String := (a.values long).head?

end Arguments

namespace Grammar

/-- Takes an option without a value. -/
def takeFlag (g : Grammar) (a : Arguments) (o : OptionSpec) : Except Halt Arguments :=
  match o.kind with
  | .version => .error (.version g.command)
  | .help => .error (.help g.command)
  | kind =>
    if a.has o.long ∧ ¬kind.repeats then .error .usage
    else .ok { a with options := a.options ++ [(o.long, "")] }

/-- Takes an option with its value. -/
def takeValue (a : Arguments) (o : OptionSpec) (value : String) : Except Halt Arguments :=
  if (a.has o.long ∧ ¬o.kind.repeats) ∨ ¬o.accepts value then .error .usage
  else .ok { a with options := a.options ++ [(o.long, value)], pending := none }

/-- Takes an operand, which is not empty. -/
def takeOperand (g : Grammar) (a : Arguments) (value : String) : Except Halt Arguments :=
  if g.operands.length ≤ a.operands.length ∨ value = "" then .error .usage
  else .ok { a with operands := a.operands ++ [value] }

/-- Reads an option by its long name. -/
def readLong (g : Grammar) (a : Arguments) (name : List Char) (value : Option (List Char)) :
    Except Halt Arguments :=
  match g.options.find? fun o => o.long.toList = name, value with
  | none, _ => .error .usage
  | some o, none =>
    if o.kind.takesValue then .ok { a with pending := some o } else g.takeFlag a o
  | some o, some value =>
    if o.kind.takesValue then takeValue a o (String.ofList value) else .error .usage

/-- Reads options by their letters; what follows one that takes a value is the value. -/
def readShort (g : Grammar) (a : Arguments) : List Char → Except Halt Arguments
  | [] => .ok a
  | c :: rest =>
    match g.options.find? fun o => o.short = some c with
    | none => .error .usage
    | some o =>
      if o.kind.takesValue then
        match rest with
        | [] => .ok { a with pending := some o }
        | '=' :: value => takeValue a o (String.ofList value)
        | value => takeValue a o (String.ofList value)
      else (g.takeFlag a o).bind fun a => readShort g a rest

/-- Whether an argument can only be an option. -/
def looksLikeOption : List Char → Bool
  | '-' :: _ :: _ => true
  | _ => false

/-- Reads an argument. -/
def step (g : Grammar) (a : Arguments) (argument : String) : Except Halt Arguments :=
  let cs := argument.toList
  if a.closed then g.takeOperand a argument
  else match a.pending with
    -- a lone minus sign is a value like any other
    | some o => if looksLikeOption cs then .error .usage else takeValue a o argument
    | none =>
      match cs with
      | ['-', '-'] => .ok { a with closed := true }
      | '-' :: '-' :: cs =>
        let name := cs.takeWhile fun c => c ≠ '='
        let value := match cs.dropWhile fun c => c ≠ '=' with
          | _ :: value => some value
          | [] => none
        g.readLong a name value
      | '-' :: c :: cs => g.readShort a (c :: cs)
      | _ => g.takeOperand a argument

/-- Reads arguments; every operand must be there. -/
def read (g : Grammar) (arguments : List String) : Except Halt Arguments := do
  let a ← arguments.foldlM g.step {}
  if a.pending.isSome ∨ a.operands.length < g.operands.length then throw .usage
  pure a

/-- Reads options in front of the first operand: that operand, and the arguments behind it. -/
def readHead (g : Grammar) (a : Arguments) : List String → Except Halt (String × List String)
  | [] => .error .usage
  | argument :: rest =>
    if looksLikeOption argument.toList then
      (g.step a argument).bind fun a => if a.closed then .error .usage else readHead g a rest
    else .ok (argument, rest)

end Grammar

end Heapscope
