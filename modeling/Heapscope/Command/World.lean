import Heapscope.Command.Session
import Heapscope.OrderedMap

/-!
# Worlds

Files by name, what has been printed, and the time: a session is played on them.

A path is walked part by part.  A single dot stays in a directory, a double one goes to the directory
above, and any other name must be the last one, unless it is the name of a directory.  The working
directory holds files only; above it there is a directory for every level, and apart from these the
root with the devices.

* `World.locate` -- what a path leads to;
* `Session.play` -- what a session does to a world.
-/

namespace Heapscope

/-- A directory that a path may lead through. -/
inductive Directory where
  /-- The one so many levels above the working directory. -/
  | above (levels : Nat)
  | root
  | devices
deriving DecidableEq, Repr

namespace Directory

/-- The text in front of the names in a directory. -/
def path : Directory → String
  | above levels => String.join (List.replicate levels "../")
  | root => "/"
  | devices => "/dev/"

/-- The directory above. -/
def parent : Directory → Directory
  | above levels => above (levels + 1)
  | root | devices => root

/-- The directory of some name in a directory. -/
def child? : Directory → String → Option Directory
  | root, "dev" => some devices
  | _, _ => none

/-- The device of some name in a directory, with the stream that it writes to. -/
def device? : Directory → String → Option (Option Stream)
  | devices, "null" => some none
  | devices, "stdout" => some (some .output)
  | devices, "stderr" => some (some .errors)
  | _, _ => none

end Directory

/-- What a path leads to. -/
inductive Target where
  | directory
  /-- A name in a directory, be there a file or not; a slash may follow. -/
  | name (d : Directory) (name : String) (slash : Bool)
deriving DecidableEq, Repr

/-- Files by their paths, what has been printed, and the time. -/
structure World where
  files : OrderedMap String FileContent := .empty
  output : List Fragment := []
  errors : List Fragment := []
  time : Nat := 0

namespace World

/-- The greatest number of bytes in a name. -/
def nameLimit : Nat := 255

/-- The greatest number of bytes in a path. -/
def pathLimit : Nat := 4095

/-- The file of some name in a directory.  There is nothing to read from a device. -/
def entry? (w : World) (d : Directory) (name : String) : Except FileError (Option FileContent) :=
  if nameLimit < name.utf8ByteSize then .error .nameTooLong
  else if (d.device? name).isSome then .ok (some (.text ""))
  else .ok (w.files.find? (d.path ++ name))

/-- Walks from a directory through the parts of a path. -/
def walk (w : World) (d : Directory) : List String → Except FileError Target
  | [] => .ok .directory
  | part :: rest =>
    if part = "" ∨ part = "." then w.walk d rest
    else if part = ".." then w.walk d.parent rest
    else match d.child? part with
      | some d => w.walk d rest
      | none =>
        if rest.all (· = "") then .ok (.name d part (!rest.isEmpty))
        else match w.entry? d part with
          | .error e => .error e
          | .ok none => .error .missing
          | .ok (some _) => .error .notDirectory

/-- What a path leads to. -/
def locate (w : World) (path : String) : Except FileError Target :=
  if pathLimit < path.utf8ByteSize then .error .nameTooLong
  else w.walk (if path.startsWith "/" then .root else .above 0) (path.splitOn "/")

/-- The file at a path. -/
def read (w : World) (path : String) : Except FileError FileContent := do
  match ← w.locate path with
  | .directory => throw .isDirectory
  | .name d name slash =>
    match ← w.entry? d name with
    | none => throw .missing
    | some content => if slash then throw .notDirectory else pure content

/-- Prints. -/
def print (w : World) (stream : Stream) (parts : List Fragment) : World :=
  match stream with
  | .output => { w with output := w.output ++ parts }
  | .errors => { w with errors := w.errors ++ parts }

/-- Puts a text into the file at a path. -/
def write (w : World) (path text : String) : Except FileError World := do
  match ← w.locate path with
  | .directory | .name _ _ true => throw .isDirectory
  | .name d name false =>
    let _ ← w.entry? d name
    match d.device? name with
    | some stream => pure (stream.elim w fun s => w.print s [.text text])
    | none => pure { w with files := w.files.insert (d.path ++ name) (.text text) }

end World

/-- Plays a session: its result or its failure, and the world afterwards.  Each look at the clock
takes one microsecond. -/
def Session.play {α : Type} : Session α → World → Except Failure α × World
  | .finish a, w => (.ok a, w)
  | .fail e, w => (.error e, w)
  | .read path next, w => (next (w.read path)).play w
  | .write path text next, w =>
    match w.write path text with
    | .error e => (next (.error e)).play w
    | .ok w => (next (.ok ())).play w
  | .print stream parts next, w => (next ()).play (w.print stream parts)
  | .clock next, w => (next w.time).play { w with time := w.time + 1000 }

end Heapscope
