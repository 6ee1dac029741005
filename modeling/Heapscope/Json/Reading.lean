import Heapscope.Json.Tree
import Heapscope.Number.Binary64

/-!
# Reading values from JSON trees

A reader takes the number of brackets that may still be opened and a tree, and gives a value or the
first fault.  A text may have at most 127 brackets open at once; parts that a reader skips are not
counted, and are only held to the form of JSON.

* `ReadError` -- the faults: most are a matter of form, three have a text of their own;
* `Json.sound` -- what is asked of a value that is skipped;
* `Json.strict` -- what is asked of a value that is read but not used;
* `Numeral.binary64?` -- the number that a numeral is read as.
-/

namespace Heapscope

-- powers of natural numbers are those of the core library, here and wherever Mathlib is imported
attribute [local instance (high)] instPowNat

/-- Why a text could not be read. -/
inductive ReadError where
  /-- The text is no JSON, or has another shape than it should. -/
  | malformed
  /-- A time is negative or beyond the clock. -/
  | time (ms : Binary64)
  /-- A color has more than 24 bits. -/
  | color (value : UInt32)
deriving DecidableEq, Repr

/-- A reader: the number of brackets that may still be opened, and the tree. -/
abbrev Reader (α : Type) := Nat → Json → Except ReadError α

namespace Numeral

/-- The greatest number of 64 bits. -/
def wordLimit : Nat := UInt64.size - 1

/-- Takes digits into a significand as long as it fits 64 bits: the significand, and the digits that
are left. -/
def takeDigits (significand : Nat) : List Digit → Nat × List Digit
  | [] => (significand, [])
  | d :: ds =>
    if 10 * significand + d.val ≤ wordLimit then takeDigits (10 * significand + d.val) ds
    else (significand, d :: ds)

/-- A power of ten. -/
def ten (k : Nat) : Binary64 := .ofNat (10 ^ k)

/-- Multiplies or divides by a power of ten, each step rounded; none beyond the range.  Powers above
`1e308` are taken in two steps, and two such divisions leave nothing of a 64-bit significand. -/
def scaleTen (x : Binary64) (exponent : Int) : Option Binary64 :=
  if 308 < exponent then if x = .zero then some x else none
  else if 0 ≤ exponent then
    let y := x * ten exponent.toNat
    if y.isFinite then some y else none
  else if -308 ≤ exponent then some (x / ten (-exponent).toNat)
  else if -616 ≤ exponent then some (x / ten 308 / ten (-exponent - 308).toNat)
  else some .zero

/-- The greatest exponent that is looked at. -/
def exponentLimit : Int := Int32.maxValue.toInt

/-- The number that a numeral is read as; none beyond the range.

A whole number of at most 64 bits is the nearest binary64 number.  Otherwise the digits are taken
into a 64-bit significand as long as they fit, the others only count for the exponent, and the
significand is rounded before it is scaled. -/
def binary64? (n : Numeral) : Option Binary64 :=
  let signed := fun (x : Binary64) => if n.negative then -x else x
  -- digits of the fraction may fit even where a digit of the whole part did not
  let (high, dropped) := takeDigits 0 (decimalDigits n.whole)
  let (significand, ignored) := takeDigits high n.fraction
  let exponent : Int := dropped.length + ignored.length - n.fraction.length
  match n.exponent with
  | none => (scaleTen (.ofNat significand) exponent).map signed
  | some e =>
    if exponentLimit < e.natAbs then
      if significand ≠ 0 ∧ 0 < e then none else some (signed .zero)
    else (scaleTen (.ofNat significand) (exponent + e)).map signed

/-- The natural number of at most `bound` that a numeral spells. -/
def nat? (bound : Nat) (n : Numeral) : Option Nat :=
  if n.isWhole ∧ ¬n.negative ∧ n.whole ≤ bound then some n.whole else none

end Numeral

namespace Json

mutual

/-- Whether a value has the form of JSON.  Nothing more is asked of a value that is skipped. -/
def sound : Json → Bool
  | .broken => false
  | .array items => soundItems items
  | .object fields => soundFields fields
  | _ => true

def soundItems : List Json → Bool
  | [] => true
  | v :: rest => sound v && soundItems rest

def soundFields : List (Option String × Json) → Bool
  | [] => true
  | (_, v) :: rest => sound v && soundFields rest

end

mutual

/-- Whether a value can be held: its numbers are in range, its strings have a meaning, and it opens
at most `depth` brackets at once. -/
def strict : Nat → Json → Bool
  | _, .broken => false
  | _, .null | _, .boolean _ => true
  | _, .numeral n => n.binary64?.isSome
  | _, .string s => s.isSome
  | depth, .array items => 0 < depth && strictItems (depth - 1) items
  | depth, .object fields => 0 < depth && strictFields (depth - 1) fields

def strictItems : Nat → List Json → Bool
  | _, [] => true
  | depth, v :: rest => strict depth v && strictItems depth rest

def strictFields : Nat → List (Option String × Json) → Bool
  | _, [] => true
  | depth, (k, v) :: rest => k.isSome && strict depth v && strictFields depth rest

end

/-- How many brackets may be open at once. -/
def depthLimit : Nat := 127

/-- Reads the document of a text: the value, and then nothing more. -/
def readText {α : Type} (reader : Reader α) (text : String) : Except ReadError α := do
  let document := Document.read text
  let v ← reader depthLimit document.root
  if document.complete then pure v else throw .malformed

/-! ## Readers of simple values -/

/-- A natural number of at most `bound`. -/
def readNat (bound : Nat) : Json → Except ReadError Nat
  | .numeral n => (n.nat? bound).elim (.error .malformed) .ok
  | _ => .error .malformed

def readUInt32 (v : Json) : Except ReadError UInt32 := UInt32.ofNat <$> v.readNat (UInt32.size - 1)

def readUInt64 (v : Json) : Except ReadError UInt64 := UInt64.ofNat <$> v.readNat (UInt64.size - 1)

/-- A number. -/
def readBinary64 : Json → Except ReadError Binary64
  | .numeral n => n.binary64?.elim (.error .malformed) .ok
  | _ => .error .malformed

def readString : Json → Except ReadError String
  | .string (some s) => .ok s
  | _ => .error .malformed

def readBoolean : Json → Except ReadError Bool
  | .boolean b => .ok b
  | _ => .error .malformed

/-- A value that may be absent; null stands for absence. -/
def readOption {α : Type} (reader : Json → Except ReadError α) :
    Json → Except ReadError (Option α)
  | .null => .ok none
  | v => some <$> reader v

/-- Opens a bracket: the number of brackets that may be opened inside. -/
def enter : Nat → Except ReadError Nat
  | 0 => .error .malformed
  | depth + 1 => .ok depth

/-- An array of values that a reader accepts. -/
def readArray {α : Type} (reader : Reader α) : Reader (List α)
  | depth, .array items => do
    let depth ← enter depth
    items.mapM (reader depth)
  | _, _ => .error .malformed

/-- When the fields of a record are read. -/
inductive Reading where
  /-- One by one, as they come. -/
  | direct
  /-- After the object around them: they were held back until then. -/
  | held
deriving DecidableEq, Repr

/-- Whether a value is nothing.  Null is; an object without fields is, too, once it is held. -/
def isNothing : Reading → Json → Bool
  | _, .null => true
  | .held, .object fields => fields.isEmpty
  | _, _ => false

/-- A value that is chosen by name: the name, or an object with the name as its single key and
nothing as its value. -/
def readName {α : Type} (reading : Reading) (ofName? : String → Option α) : Reader α
  | _, .string (some s) => (ofName? s).elim (.error .malformed) .ok
  | depth, .object fields => do
    let _ ← enter depth
    match fields with
    | [(some s, v)] =>
      if isNothing reading v then (ofName? s).elim (.error .malformed) .ok else throw .malformed
    | _ => throw .malformed
  | _, _ => .error .malformed

end Json

end Heapscope
