import Heapscope.Guest.Text

/-!
# Sessions

What a command does to the world, as a tree: at each node it reads a file, writes one, prints or
looks at the clock, and the answer selects how it goes on.  A session may fail; a failure is
reported with what led to it.
-/

namespace Heapscope

/-- A file: text, or an allocator module. -/
inductive FileContent where
  | text (s : String)
  | allocator (source : ModuleSource)

namespace FileContent

/-- The text of a file; a module is not read as text. -/
def text? : FileContent → Option String
  | text s => some s
  | allocator _ => none

/-- The allocator module that a file holds. -/
def source : FileContent → ModuleSource
  | text s => .ofText s
  | allocator source => source

end FileContent

/-- Why a file could not be read or written. -/
inductive FileError where
  | missing
  | notDirectory
  | isDirectory
  | nameTooLong
  /-- Another reason that the system gives, with its number. -/
  | other (number : UInt32) (reason : String)
deriving DecidableEq, Repr

namespace FileError

/-- The number of a reason, and the reason. -/
def reason : FileError → UInt32 × String
  | missing => (2, "No such file or directory")
  | notDirectory => (20, "Not a directory")
  | isDirectory => (21, "Is a directory")
  | nameTooLong => (36, "File name too long")
  | other number reason => (number, reason)

def message (e : FileError) : String := s!"{e.reason.2} (os error {e.reason.1})"

end FileError

/-- Why a command failed: a message, and the messages of what led to it. -/
structure Failure where
  message : String
  causes : List String := []
deriving DecidableEq, Repr

namespace Failure

/-- The lines of a message after the first are moved to the right. -/
def indented (indent : String) (message : String) : String :=
  String.join (message.toList.map fun c =>
    if c = '\n' then "\n" ++ indent else String.singleton c)

/-- The report of a failure.  Several causes are numbered. -/
def text (f : Failure) : String :=
  let causes := match f.causes with
    | [] => ""
    | [cause] => "\n\nCaused by:\n    " ++ indented "    " cause
    | causes => "\n\nCaused by:" ++ String.join (causes.zipIdx.map fun c =>
        let number := toString c.2
        let blanks := String.ofList (List.replicate (5 - number.length) ' ')
        "\n" ++ blanks ++ number ++ ": " ++ indented "       " c.1)
  "Error: " ++ f.message ++ causes ++ "\n"

end Failure

/-- A part of what is printed.  What comes from the clock is kept apart. -/
inductive Fragment where
  | text (s : String)
  /-- A length of time. -/
  | elapsed (s : String)
  /-- A number of operations per second. -/
  | rate (s : String)
deriving DecidableEq, Repr

/-- Where something is printed. -/
inductive Stream where
  | output
  | errors
deriving DecidableEq, Repr

/-- What a command does. -/
inductive Session (α : Type) where
  | finish (result : α)
  | fail (f : Failure)
  | read (path : String) (next : Except FileError FileContent → Session α)
  | write (path text : String) (next : Except FileError Unit → Session α)
  | print (stream : Stream) (parts : List Fragment) (next : Unit → Session α)
  /-- Looks at the clock, which counts nanoseconds. -/
  | clock (next : Nat → Session α)

namespace Session

variable {α β : Type}

/-- Goes on with what the result selects. -/
def bind : Session α → (α → Session β) → Session β
  | finish a, f => f a
  | fail e, _ => fail e
  | read path next, f => read path fun r => (next r).bind f
  | write path text next, f => write path text fun r => (next r).bind f
  | print stream parts next, f => print stream parts fun r => (next r).bind f
  | clock next, f => clock fun r => (next r).bind f

instance : Monad Session where
  pure := finish
  bind := bind

/-- Goes on with a result, or fails for a reason. -/
def orFail {ε : Type} (context : String) (causes : ε → List String) : Except ε α → Session α
  | .ok a => finish a
  | .error e => fail ⟨context, causes e⟩

/-- Reads a file. -/
def readFile (context path : String) : Session FileContent :=
  read path (orFail (context ++ path) fun e => [e.message])

/-- Prints a text. -/
def say (stream : Stream) (s : String) : Session Unit := print stream [.text s] finish

/-- Writes a text to a file, or prints it. -/
def emit (path : Option String) (s : String) : Session Unit :=
  match path with
  | some path => write path s (orFail ("creating " ++ path) fun e => [e.message])
  | none => say .output s

/-- The time on the clock. -/
def now : Session Nat := clock finish

end Session

end Heapscope
