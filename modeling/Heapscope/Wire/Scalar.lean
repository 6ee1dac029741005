import Heapscope.Json.Reading
import Heapscope.Call

/-!
# The wire form of simple values

Times are numbers of milliseconds, colors and addresses whole numbers, and the key of a block is a
string (its name) or a whole number (its address).

A record is read field by field in the order of the text into *slots*, so that the first fault of
the text is the one reported; a slot that is filled twice is a fault.
-/

namespace Heapscope

/-- Fills an empty slot with what is read. -/
def fill {α : Type} (slot : Option α) (value : Except ReadError α) : Except ReadError (Option α) :=
  if slot.isSome then .error .malformed else some <$> value

/-- The content of a slot that must be filled. -/
def filled {α : Type} (slot : Option α) : Except ReadError α := slot.elim (.error .malformed) .ok

/-- Reads the fields of an object into slots, one by one; every key must have a meaning. -/
def readFields {σ : Type} (step : σ → String → Json → Except ReadError σ) (start : σ)
    (fields : List (Option String × Json)) : Except ReadError σ :=
  fields.foldlM (fun slots field => (filled field.1).bind fun key => step slots key field.2) start

/-- Passes over a value that belongs to no field. -/
def skip {σ : Type} (slots : σ) (v : Json) : Except ReadError σ :=
  if v.sound then .ok slots else .error .malformed

/-- A binary64 number on the wire; null when it is not finite. -/
def Binary64.toJson (x : Binary64) : Json := x.wireNumeral?.elim .null .numeral

namespace Micros

def toJson (t : Micros) : Json := t.millis.toJson

/-- Reads milliseconds; a number that is no time is a fault with a text of its own. -/
def ofJson (v : Json) : Except ReadError Micros := do
  let ms ← v.readBinary64
  (ofMillis? ms).elim (.error (.time ms)) .ok

end Micros

namespace Color

def toJson (c : Color) : Json := .nat c.value.toNat

/-- Reads a color; a number with more than 24 bits is a fault with a text of its own. -/
def ofJson (v : Json) : Except ReadError Color := do
  let n ← v.readUInt32
  (ofNumber? n).elim (.error (.color n)) .ok

end Color

namespace AllocationKey

def toJson : AllocationKey → Json
  | named name => .text name
  | address a => .nat a.toNat

def ofJson : Json → Except ReadError AllocationKey
  | .string (some name) => .ok (named name)
  | v => address <$> v.readUInt32

end AllocationKey

namespace ReadError

/-- The text of a fault that has one of its own. -/
def message? : ReadError → Option String
  | malformed => none
  | time ms => some s!"time must be a finite, non-negative millisecond value, got {ms.text}"
  | color n => some (Invalid.color n).message

end ReadError

end Heapscope
