import Heapscope.Micros
import Heapscope.Number.Literal
import Heapscope.Text.Blank
import Heapscope.Workload.Error

/-!
# Attribute values

Blanks around a value are ignored; beyond that each kind of value has one strict form.

* `number?` -- a whole number of 32 bits, in decimal or after `0x` in base sixteen;
* `duration?` -- milliseconds, or seconds when an `s` follows;
* `color?` -- six hexadecimal digits after `#`, or a whole number of 24 bits;
* `opacity?` -- a number in the unit interval.

The functions of `Attributes` look up an attribute of an element and report a faulty value.
-/

namespace Heapscope

namespace Attribute

/-- The greatest 32-bit number. -/
def wordLimit : Nat := UInt32.size - 1

/-- Whether the characters are decimal digits. -/
def allDigits (cs : List Char) : Bool := cs.all fun c => '0' ≤ c && c ≤ '9'

/-- A whole number of 32 bits. -/
def trimmedNumber? (cs : List Char) : Option UInt32 :=
  UInt32.ofNat <$> match cs with
  | '0' :: 'x' :: hex | '0' :: 'X' :: hex => wholeLiteral? 16 wordLimit hex
  | cs => if allDigits cs then wholeLiteral? 10 wordLimit cs else none

/-- A whole number of 32 bits, in decimal or after `0x` in base sixteen. -/
def number? (value : String) : Option UInt32 := trimmedNumber? (trim value.toList)

/-- Removes an ending. -/
def dropEnding? (ending cs : List Char) : Option (List Char) :=
  if ending.isSuffixOf cs then some (cs.take (cs.length - ending.length)) else none

/-- The number part of a duration and the milliseconds of its unit. -/
def splitUnit (cs : List Char) : List Char × Binary64 :=
  match dropEnding? ['m', 's'] cs, dropEnding? ['s'] cs with
  | some number, _ => (number, .one)
  | none, some number => (number, .ofNat 1000)
  | none, none => (cs, .one)

/-- A number of milliseconds, or of seconds when the unit is `s`; digits and points only. -/
def duration? (value : String) : Option Micros := do
  let (number, unit) := splitUnit (trim value.toList)
  let number := trimRight number
  if number.all fun c => c == '.' || ('0' ≤ c && c ≤ '9') then
    let x ← decimalLiteral? false number
    Micros.ofMillis? (x * unit)
  else none

/-- The number of a color. -/
def trimmedColor? (cs : List Char) : Option UInt32 :=
  match cs with
  | '#' :: hex => if hex.length = 6 then UInt32.ofNat <$> wholeLiteral? 16 wordLimit hex else none
  | cs => trimmedNumber? cs

/-- Six hexadecimal digits after `#`, or a whole number of 24 bits. -/
def color? (value : String) : Option Color := do
  let n ← trimmedColor? (trim value.toList)
  Color.ofNumber? n

/-- A number in the unit interval. -/
def opacity? (value : String) : Option Binary64 := do
  let x ← Binary64.ofLiteral? (trim value.toList)
  if x.inUnit then some x else none

/-- The name of a block: any text but blanks, without the blanks around it. -/
def id? (value : String) : Option String :=
  let name := trim value.toList
  if name.isEmpty then none else some (String.ofList name)

end Attribute

/-- The attributes of an element that is known. -/
structure Attributes where
  element : Element
  values : OrderedMap String String

namespace Attributes

def missing (a : Attributes) (name : String) : CompileError := .missingAttribute a.element name

def invalid (a : Attributes) (name value : String) (fault : AttributeFault) : CompileError :=
  .invalidAttribute a.element name value fault

/-- Refuses the first attribute that the element does not take. -/
def checkNames (a : Attributes) : Except CompileError Unit :=
  match a.values.keys.find? fun k => !a.element.attributes.contains k with
  | some name => .error (.unknownAttribute a.element name)
  | none => .ok ()

/-- An attribute read in the given form, if it is present. -/
def get? {α : Type} (a : Attributes) (form? : String → Option α) (fault : AttributeFault)
    (name : String) : Except CompileError (Option α) :=
  match a.values.find? name with
  | none => .ok none
  | some value => (form? value).elim (.error (a.invalid name value fault)) (.ok ∘ some)

/-- What must be present. -/
def require {α : Type} (a : Attributes) (name : String) (value : Option α) :
    Except CompileError α := value.elim (.error (a.missing name)) .ok

def number? (a : Attributes) : String → Except CompileError (Option UInt32) :=
  a.get? Attribute.number? .notWhole

/-- A number of bytes; there must be at least one. -/
def size? (a : Attributes) (name : String) : Except CompileError (Option UInt32) := do
  let n ← a.number? name
  if n = some 0 then throw (a.invalid name "0" .zeroSize) else pure n

def duration? (a : Attributes) : Except CompileError (Option Micros) :=
  a.get? Attribute.duration? .notDuration "duration"

def color? (a : Attributes) : Except CompileError (Option Color) :=
  a.get? Attribute.color? .notColor "color"

def opacity? (a : Attributes) : Except CompileError (Option Binary64) :=
  a.get? Attribute.opacity? .notOpacity "alpha"

/-- The name of a block, without the blanks around it. -/
def id? (a : Attributes) : Except CompileError (Option String) :=
  a.get? Attribute.id? .emptyId "id"

end Attributes

end Heapscope
