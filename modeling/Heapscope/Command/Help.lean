import Heapscope.Command.Grammar

/-!
# Help on grammars

What a command does, how it is called, and its operands and options in two columns.
-/

namespace Heapscope

/-- Rows of two columns under a heading; nothing is written if there are no rows. -/
def columns (heading : String) (rows : List (String × String)) : String :=
  let width := rows.foldl (fun width r => max width r.1.length) 0
  let blanks := fun (left : String) => String.ofList (List.replicate (width - left.length) ' ')
  let lines := rows.map fun r => "  " ++ r.1 ++ blanks r.1 ++ "  " ++ r.2 ++ "\n"
  if rows.isEmpty then "" else "\n" ++ heading ++ ":\n" ++ String.join lines

namespace OptionSpec

/-- How an option is written. -/
def term (o : OptionSpec) : String :=
  let letter := o.short.elim "    " fun c => s!"-{c}, "
  let value := match o.kind with
    | .single | .many => " <" ++ o.valueName ++ ">"
    | .counter => "..."
    | .flag | .version | .help => ""
  letter ++ "--" ++ o.long ++ value

/-- What an option does, and the value that it has if it is not given. -/
def description (o : OptionSpec) : String :=
  o.about ++ o.default.elim "" fun value => s!" [default: {value}]"

end OptionSpec

/-- How an operand is written. -/
def OperandSpec.term (o : OperandSpec) : String :=
  if o.repeats then "[" ++ o.name ++ "]..." else "<" ++ o.name ++ ">"

/-- The help on a command, which is called by the name of the program and its own.  A command that
consists of others names them. -/
def Grammar.help (g : Grammar) (program : String) (commands : List Grammar) : String :=
  let options := if g.options.isEmpty then "" else " [OPTIONS]"
  let operands := if commands.isEmpty then String.join (g.operands.map fun o => " " ++ o.term)
    else " <COMMAND>"
  g.about ++ "\n\nUsage: " ++ program ++ g.command.elim "" (" " ++ ·) ++ options ++ operands ++ "\n"
    ++ columns "Commands" (commands.map fun c => (c.command.getD "", c.about))
    ++ columns "Arguments" (g.operands.map fun o => (o.term, o.about))
    ++ columns "Options" (g.options.map fun o => (o.term, o.description))

end Heapscope
