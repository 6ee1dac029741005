import Heapscope.Note
import Heapscope.Micros

/-!
# Calls

A call is one operation of a workload on the clock, issued by a thread.  Compiling a workload gives
calls without results; a run fills in the address that an allocation returned, the key of its block
and its color.
-/

namespace Heapscope

/-- The number of a thread. -/
abbrev ThreadId := UInt32

/-- What names a live block: a name given by the workload, or the block's address. -/
inductive AllocationKey where
  | named (name : String)
  | address (a : UInt32)
deriving DecidableEq, Repr

namespace AllocationKey

/-- The key of a name that is local to a thread. -/
def inThread (thread : ThreadId) (name : String) : AllocationKey := .named s!"{thread}-{name}"

def text : AllocationKey → String
  | named name => name
  | address a => s!"@{a}"

end AllocationKey

/-- What a call does. -/
inductive Op where
  /-- Allocates `size` bytes: at a pinned address, or where the allocator says. -/
  | malloc (size : UInt32) (pinned : Option UInt32) (color : Option Color)
  /-- Releases a block. -/
  | free (address : Option UInt32) (color : Option Color)
  /-- Lets time pass. -/
  | sleep
  /-- Changes the marks. -/
  | annotate (a : Note)
deriving DecidableEq, Repr

namespace Op

def name : Op → String
  | malloc .. => "malloc"
  | free .. => "free"
  | sleep => "sleep"
  | annotate _ => "annotate"

end Op

/-- One operation on the clock. -/
structure Call where
  op : Op
  /-- The key of the block that is allocated or released. -/
  id : Option AllocationKey
  /-- The address that an allocation returned. -/
  result : Option UInt32
  thread : ThreadId
  /-- When the call starts. -/
  time : Micros
  duration : Micros
deriving DecidableEq, Repr

namespace Call

/-- When the call ends. -/
def finish (c : Call) : Micros := c.time + c.duration

/-- The number that a call is shown with: a size or an address. -/
def args (c : Call) : List UInt32 :=
  match c.op with
  | .malloc size _ _ => [size]
  | .free address _ => address.toList
  | .sleep => []
  | .annotate a => [a.address]

/-- The color of a block that is allocated or released. -/
def color (c : Call) : Option Color :=
  match c.op with
  | .malloc _ _ color | .free _ color => color
  | .sleep | .annotate _ => none

/-- The line that a call is shown as. -/
def text (c : Call) : String :=
  let args := ", ".intercalate (c.args.map toString)
  let result := match c.result with
    | some a => s!" = {a}"
    | none => ""
  s!"[t{c.thread} @{c.time.text}] {c.op.name}({args}){result}"

/-- Calls are ordered by time, and at one time by thread. -/
def before (a b : Call) : Bool :=
  a.time < b.time || (a.time == b.time && a.thread < b.thread)

end Call

/-- How serious a message is. -/
inductive LogLevel where
  | info
  | warn
  | error
deriving DecidableEq, Repr

namespace LogLevel

def name : LogLevel → String
  | info => "info"
  | warn => "warn"
  | error => "error"

def ofName? (s : String) : Option LogLevel := [info, warn, error].find? fun l => l.name == s

end LogLevel

/-- A message from an allocator. -/
structure LogEntry where
  level : LogLevel
  message : String
deriving DecidableEq, Repr

end Heapscope
