import Heapscope.Wire.Scalar

/-!
# The wire form of notes

A note is an object; fields without a value are left out.  It may also be written as an array
of its fields in order, of which the first two are required.
-/

namespace Heapscope

namespace Note

/-- The fields of a note on the wire. -/
def fields (a : Note) : List (String × Json) :=
  [("type", .text a.kind.name), ("address", .nat a.address.toNat)]
    ++ Json.field? "size" (fun n => .nat n.toNat) a.size
    ++ Json.field? "target" (fun n => .nat n.toNat) a.target
    ++ Json.field? "text" Json.text a.text
    ++ Json.field? "color" Color.toJson a.color
    ++ Json.field? "alpha" Binary64.toJson a.alpha

def toJson (a : Note) : Json := .record a.fields

/-- The fields of a note read so far. -/
structure Slots where
  kind : Option NoteKind := none
  address : Option UInt32 := none
  size : Option (Option UInt32) := none
  target : Option (Option UInt32) := none
  text : Option (Option String) := none
  color : Option (Option Color) := none
  alpha : Option (Option Binary64) := none

namespace Slots

/-- Reads one field. -/
def read (reading : Json.Reading) (depth : Nat) (s : Slots) (key : String) (v : Json) :
    Except ReadError Slots := do
  match key with
  | "type" => pure { s with kind := ← fill s.kind (Json.readName reading NoteKind.ofName? depth v) }
  | "address" => pure { s with address := ← fill s.address v.readUInt32 }
  | "size" => pure { s with size := ← fill s.size (v.readOption Json.readUInt32) }
  | "target" => pure { s with target := ← fill s.target (v.readOption Json.readUInt32) }
  | "text" => pure { s with text := ← fill s.text (v.readOption Json.readString) }
  | "color" => pure { s with color := ← fill s.color (v.readOption Color.ofJson) }
  | "alpha" => pure { s with alpha := ← fill s.alpha (v.readOption Json.readBinary64) }
  | _ => skip s v

/-- The note whose fields have been read. -/
def finish (s : Slots) : Except ReadError Note := do
  let kind ← filled s.kind
  let address ← filled s.address
  pure ⟨kind, address, s.size.join, s.target.join, s.text.join, s.color.join, s.alpha.join⟩

end Slots

/-- The names of the fields in order. -/
def fieldNames : List String := ["type", "address", "size", "target", "text", "color", "alpha"]

def ofJson : Reader Note
  | depth, .object fields => do
    let depth ← Json.enter depth
    (← readFields (Slots.read .direct depth) {} fields).finish
  | depth, .array items => do
    let depth ← Json.enter depth
    let named := fieldNames.zip items |>.map fun f => (some f.1, f.2)
    let slots ← readFields (Slots.read .direct depth) {} named
    if fieldNames.length < items.length then throw .malformed
    slots.finish
  | _, _ => .error .malformed

end Note

end Heapscope
