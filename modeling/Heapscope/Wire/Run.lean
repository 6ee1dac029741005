import Heapscope.Run.Execution
import Heapscope.Wire.Call

/-!
# The wire form of messages and palettes

A message in a run is one flat object: the place in the run, the level, the text.  A palette is an
object with the single field `palette`.
-/

namespace Heapscope

namespace LogEntry

def fields (e : LogEntry) : List (String × Json) :=
  [("level", .text e.level.name), ("message", .text e.message)]

/-- The fields of a message read so far. -/
structure Slots where
  level : Option LogLevel := none
  message : Option String := none

namespace Slots

/-- Reads one field. -/
def read (reading : Json.Reading) (depth : Nat) (s : Slots) (key : String) (v : Json) :
    Except ReadError Slots := do
  match key with
  | "level" =>
    pure { s with level := ← fill s.level (Json.readName reading LogLevel.ofName? depth v) }
  | "message" => pure { s with message := ← fill s.message v.readString }
  | _ => skip s v

def finish (s : Slots) : Except ReadError LogEntry := do
  pure ⟨← filled s.level, ← filled s.message⟩

end Slots

def ofJson : Reader LogEntry
  | depth, .object fields => do
    let depth ← Json.enter depth
    (← readFields (Slots.read .direct depth) {} fields).finish
  | depth, .array [level, message] => do
    let depth ← Json.enter depth
    pure ⟨← Json.readName .direct LogLevel.ofName? depth level, ← message.readString⟩
  | _, _ => .error .malformed

end LogEntry

namespace LogRecord

def toJson (r : LogRecord) : Json :=
  .record <| Json.field? "callIndex" Json.nat r.callIndex
    ++ [("time", r.time.toJson), ("threadId", .nat r.thread.toNat)] ++ r.entry.fields

/-- The fields of a record read so far, and those held back for the message. -/
structure Slots where
  callIndex : Option (Option UInt64) := none
  time : Option Micros := none
  thread : Option UInt32 := none
  held : List (Option String × Json) := []

namespace Slots

/-- Reads one field. -/
def read (depth : Nat) (s : Slots) (key : String) (v : Json) : Except ReadError Slots := do
  match key with
  | "callIndex" => pure { s with callIndex := ← fill s.callIndex (v.readOption Json.readUInt64) }
  | "time" => pure { s with time := ← fill s.time (Micros.ofJson v) }
  | "threadId" => pure { s with thread := ← fill s.thread v.readUInt32 }
  | _ =>
    if v.strict depth then pure { s with held := s.held ++ [(some key, v)] }
    else throw .malformed

def finish (s : Slots) : Except ReadError LogRecord := do
  let time ← filled s.time
  let thread ← filled s.thread
  let entry ← readFields (LogEntry.Slots.read .held Json.depthLimit) {} s.held
  pure ⟨s.callIndex.join.map UInt64.toNat, time, thread, ← entry.finish⟩

end Slots

def ofJson : Reader LogRecord
  | depth, .object fields => do
    let depth ← Json.enter depth
    (← readFields (Slots.read depth) {} fields).finish
  | _, _ => .error .malformed

end LogRecord

namespace Palette

def toJson (p : Palette) : Json := .record [("palette", .array (p.colors.map Color.toJson))]

/-- Reads one field of the object around a palette. -/
def readField (depth : Nat) (slot : Option (List Color)) (key : String) (v : Json) :
    Except ReadError (Option (List Color)) :=
  match key with
  | "palette" => fill slot (Json.readArray (fun _ => Color.ofJson) depth v)
  | _ => skip slot v

/-- Reads a palette; the default one stands for an absent field. -/
def ofJson : Reader Palette
  | depth, .object fields => do
    let depth ← Json.enter depth
    let slot ← readFields (readField depth) none fields
    pure (slot.elim .default Palette.mk)
  | depth, .array items => do
    let depth ← Json.enter depth
    match items with
    | [] => pure .default
    | v :: rest =>
      let colors ← Json.readArray (fun _ => Color.ofJson) depth v
      if rest.isEmpty then pure ⟨colors⟩ else throw .malformed
  | _, _ => .error .malformed

end Palette

end Heapscope
