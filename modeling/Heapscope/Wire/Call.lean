import Heapscope.Wire.Note
import Heapscope.Trace.Basic

/-!
# The wire form of calls and traces

A call is one flat object: `function` and the fields of the operation, then the fields of the call
itself.  On reading, the call's own fields are read as they come and all others are held back; once
the object is complete the operation takes its fields from those.  A trace is the array of its
calls.
-/

namespace Heapscope

namespace Op

/-- The fields of an operation on the wire, after `function`. -/
def fields : Op → List (String × Json)
  | malloc size pinned color =>
    ("size", .nat size.toNat) :: Json.field? "addr" (fun n => .nat n.toNat) pinned
      ++ Json.field? "color" Color.toJson color
  | free address color =>
    Json.field? "address" (fun n => .nat n.toNat) address ++ Json.field? "color" Color.toJson color
  | sleep => []
  | annotate a => a.fields

/-- The fields of an allocation read so far. -/
structure MallocSlots where
  size : Option UInt32 := none
  pinned : Option (Option UInt32) := none
  color : Option (Option Color) := none

def MallocSlots.read (s : MallocSlots) (key : String) (v : Json) :
    Except ReadError MallocSlots := do
  match key with
  | "size" => pure { s with size := ← fill s.size v.readUInt32 }
  | "addr" => pure { s with pinned := ← fill s.pinned (v.readOption Json.readUInt32) }
  | "color" => pure { s with color := ← fill s.color (v.readOption Color.ofJson) }
  | _ => pure s

/-- The fields of a release read so far. -/
structure FreeSlots where
  address : Option (Option UInt32) := none
  color : Option (Option Color) := none

def FreeSlots.read (s : FreeSlots) (key : String) (v : Json) : Except ReadError FreeSlots := do
  match key with
  | "address" => pure { s with address := ← fill s.address (v.readOption Json.readUInt32) }
  | "color" => pure { s with color := ← fill s.color (v.readOption Color.ofJson) }
  | _ => pure s

/-- The names of the functions; a number may stand for a name by its place. -/
def names : List String := ["malloc", "free", "sleep", "annotate"]

/-- Reads the name of a function. -/
def readFunction : Json → Except ReadError String
  | .string (some name) => .ok name
  | v => do filled names[← v.readNat (UInt64.size - 1)]?

/-- Reads the operation of a function from the fields that were held back. -/
def ofFields (function : String) (held : List (Option String × Json)) : Except ReadError Op := do
  match function with
  | "malloc" =>
    let s ← readFields MallocSlots.read {} held
    pure (malloc (← filled s.size) s.pinned.join s.color.join)
  | "free" =>
    let s ← readFields FreeSlots.read {} held
    pure (free s.address.join s.color.join)
  | "sleep" => pure sleep
  | "annotate" =>
    let s ← readFields (Note.Slots.read .held Json.depthLimit) {} held
    annotate <$> s.finish
  | _ => throw .malformed

end Op

namespace Call

/-- The fields of a call on the wire. -/
def fields (c : Call) : List (String × Json) :=
  ("function", .text c.op.name) :: c.op.fields
    ++ Json.field? "id" AllocationKey.toJson c.id
    ++ Json.field? "return" (fun n => .nat n.toNat) c.result
    ++ [("threadId", .nat c.thread.toNat), ("time", c.time.toJson), ("duration", c.duration.toJson)]

def toJson (c : Call) : Json := .record c.fields

/-- The fields of a call read so far, and those held back for the operation. -/
structure Slots where
  id : Option (Option AllocationKey) := none
  result : Option (Option UInt32) := none
  thread : Option UInt32 := none
  time : Option Micros := none
  duration : Option Micros := none
  held : List (Option String × Json) := []

namespace Slots

/-- Reads one field. -/
def read (depth : Nat) (s : Slots) (key : String) (v : Json) : Except ReadError Slots := do
  match key with
  | "id" => pure { s with id := ← fill s.id (v.readOption AllocationKey.ofJson) }
  | "return" => pure { s with result := ← fill s.result (v.readOption Json.readUInt32) }
  | "threadId" => pure { s with thread := ← fill s.thread v.readUInt32 }
  | "time" => pure { s with time := ← fill s.time (Micros.ofJson v) }
  | "duration" => pure { s with duration := ← fill s.duration (Micros.ofJson v) }
  | _ =>
    if v.strict depth then pure { s with held := s.held ++ [(some key, v)] }
    else throw .malformed

/-- The call whose fields have been read.  Exactly one held field names the function. -/
def finish (s : Slots) : Except ReadError Call := do
  let thread ← filled s.thread
  let time ← filled s.time
  let duration ← filled s.duration
  -- the fields of the operation are read last, in the order of the text
  let (functions, held) := s.held.partition fun f => f.1 == some "function"
  match functions with
  | [(_, function)] =>
    let op ← Op.ofFields (← Op.readFunction function) held
    pure ⟨op, s.id.join, s.result.join, thread, time, duration⟩
  | _ => throw .malformed

end Slots

def ofJson : Reader Call
  | depth, .object fields => do
    let depth ← Json.enter depth
    (← readFields (Slots.read depth) {} fields).finish
  | _, _ => .error .malformed

def listToJson (calls : List Call) : Json := .array (calls.map toJson)

/-- The text of a file of calls: indented, with a line break at the end. -/
def fileText (calls : List Call) : String := (listToJson calls).pretty ++ "\n"

/-- Reads a list of calls, in any order. -/
def listOfText (text : String) : Except ReadError (List Call) :=
  Json.readText (Json.readArray ofJson) text

end Call

namespace Trace

/-- The text of a trace on one line. -/
def compact (t : Trace) : String := (Call.listToJson t.calls).compact

/-- The text of a trace file. -/
def pretty (t : Trace) : String := Call.fileText t.calls

/-- Why a trace could not be read. -/
inductive Fault where
  | unreadable (e : ReadError)
  | invalid (e : Invalid)
deriving DecidableEq, Repr

/-- Reads a trace; its calls must be sorted. -/
def ofText (text : String) : Except Fault Trace := do
  let calls ← (Call.listOfText text).mapError .unreadable
  (ofCalls? calls).mapError .invalid

/-- Reads a trace, looking at the order of its calls before the end of the text. -/
def ofTextOrderFirst (text : String) : Except Fault Trace := do
  let document := Document.read text
  let calls ← (Json.readArray Call.ofJson Json.depthLimit document.root).mapError .unreadable
  let trace ← (ofCalls? calls).mapError .invalid
  if document.complete then pure trace else throw (.unreadable .malformed)

end Trace

end Heapscope
