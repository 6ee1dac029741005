import Heapscope.Number.Binary64
import Heapscope.Number.Numeral

/-!
# Number literals

What people type where a number is expected: whole numbers in a given base, and decimal numbers
with an optional point and exponent.  A decimal is read to the nearest binary64 number, ties to
even.
-/

namespace Heapscope

-- powers of natural numbers are those of the core library, here and wherever Mathlib is imported
attribute [local instance (high)] instPowNat

/-- The value of a digit in bases up to sixteen; letters may have either case. -/
def digitValue (c : Char) : Nat :=
  if '0' ≤ c ∧ c ≤ '9' then c.toNat - 48
  else if 'a' ≤ c ∧ c ≤ 'f' then c.toNat - 87
  else if 'A' ≤ c ∧ c ≤ 'F' then c.toNat - 55
  else 16

/-- The number spelled by one or more digits of the base. -/
def digitsValue? (base : Nat) (cs : List Char) : Option Nat :=
  if cs ≠ [] ∧ cs.all fun c => digitValue c < base then
    some (cs.foldl (fun n c => base * n + digitValue c) 0)
  else none

/-- Removes one leading plus sign. -/
def dropPlus : List Char → List Char
  | '+' :: cs => cs
  | cs => cs

/-- The number of at most `bound` spelled by digits of the base, possibly after a plus sign. -/
def wholeLiteral? (base bound : Nat) (cs : List Char) : Option Nat := do
  let n ← digitsValue? base (dropPlus cs)
  if n ≤ bound then some n else none

/-- The binary64 number nearest to `±digits * 10 ^ exponent`.  Far beyond the range of the format
the answer is infinity or zero without computing the power. -/
def Binary64.ofDecimal (negative : Bool) (digits : Nat) (exponent : Int) : Binary64 :=
  let leading : Int := exponent + decimalWidth digits
  if digits = 0 ∨ leading < -400 then .ofMagnitude negative 0
  else if 400 < leading then .infinity negative
  else .ofRatio negative (digits * 10 ^ exponent.toNat) (10 ^ (-exponent).toNat)

/-- Splits off the longest run of decimal digits. -/
def spanDigits (cs : List Char) : List Digit × List Char :=
  match cs with
  | [] => ([], [])
  | c :: rest =>
    match Digit.ofChar? c with
    | some d => let (ds, tail) := spanDigits rest; (d :: ds, tail)
    | none => ([], cs)

/-- The exponent of a decimal literal: nothing, or `e` with an optional sign and digits. -/
def exponentLiteral? : List Char → Option Int
  | [] => some 0
  | c :: cs =>
    if c = 'e' ∨ c = 'E' then
      let (negative, cs) := match cs with
        | '-' :: r => (true, r)
        | '+' :: r => (false, r)
        | r => (false, r)
      match spanDigits cs with
      | ([], _) | (_, _ :: _) => none
      | (ds, []) => some (if negative then -(Digit.value ds : Int) else Digit.value ds)
    else none

/-- A decimal literal without sign: digits with at most one point, at least one digit, and an
optional exponent. -/
def decimalLiteral? (negative : Bool) (cs : List Char) : Option Binary64 := do
  let (whole, rest) := spanDigits cs
  let (fraction, rest) := match rest with
    | '.' :: r => spanDigits r
    | r => ([], r)
  let exponent ← exponentLiteral? rest
  if whole.isEmpty ∧ fraction.isEmpty then none
  else some (.ofDecimal negative (Digit.value (whole ++ fraction)) (exponent - fraction.length))

/-- The lower case of an ASCII letter. -/
def asciiLower (c : Char) : Char := if 'A' ≤ c ∧ c ≤ 'Z' then Char.ofNat (c.toNat + 32) else c

/-- A signed decimal literal, or an infinity or not-a-number by name in any case. -/
def Binary64.ofLiteral? (cs : List Char) : Option Binary64 :=
  let (negative, cs) := match cs with
    | '-' :: r => (true, r)
    | '+' :: r => (false, r)
    | r => (false, r)
  let word := cs.map asciiLower
  if word = "inf".toList ∨ word = "infinity".toList then some (.infinity negative)
  else if word = "nan".toList then
    some (if negative then .neg .nan else .nan)
  else decimalLiteral? negative cs

end Heapscope
