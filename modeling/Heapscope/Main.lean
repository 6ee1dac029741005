import Heapscope.Command.Perform

/-!
# The program

Plays sessions on the files, the streams and the clock of the system.
-/

namespace Heapscope

/-- Why the system refused a file.  The number of the reason may be negated. -/
def FileError.ofSystem : IO.Error → FileError
  | .noFileOrDirectory .. => .missing
  | .inappropriateType _ _ details =>
    if details = "Is a directory" then .isDirectory else .notDirectory
  | .invalidArgument _ number details =>
    let number := min number (0 - number)
    if number = nameTooLong.reason.1 then .nameTooLong else .other number details
  | .permissionDenied _ number details =>
    .other (min number (0 - number)) details
  | e => .other 0 (toString e)

/-- The text of a part, whatever it comes from. -/
def Fragment.shown : Fragment → String
  | .text s | .elapsed s | .rate s => s

/-- Plays a session. -/
def Session.perform {α : Type} : Session α → IO (Except Failure α)
  | .finish a => return .ok a
  | .fail f => return .error f
  | .read path next => do
    let content ← (IO.FS.readFile path).toBaseIO
    (next ((content.map FileContent.text).mapError FileError.ofSystem)).perform
  | .write path text next => do
    let done ← (IO.FS.writeFile path text).toBaseIO
    (next (done.mapError FileError.ofSystem)).perform
  | .print stream parts next => do
    let s := String.join (parts.map Fragment.shown)
    match stream with
    | .output => IO.print s
    | .errors => IO.eprint s
    (next ()).perform
  | .clock next => do
    (next (← IO.monoNanosNow)).perform

end Heapscope

def main (arguments : List String) : IO UInt32 := do
  match ← (Heapscope.program arguments).perform with
  | .ok code => return code
  | .error f =>
    IO.eprint f.text
    return 1
