/-!
# Decimal numerals

A numeral is a written decimal number: an optional minus sign, a whole part, the digits of a
fraction and an exponent of ten.  Two spellings of one number (`1.50` and `1.5`, `1e2` and `100`)
are different numerals.

* `digits` -- the decimal digits of a natural number, padded on the left;
* `Numeral.text` -- the spelling, with a sign on every exponent.
-/

namespace Heapscope

-- powers of natural numbers are those of the core library, here and wherever Mathlib is imported
attribute [local instance (high)] instPowNat

/-- A decimal digit. -/
abbrev Digit := Fin 10

namespace Digit

def char (d : Digit) : Char := Char.ofNat (48 + d.val)

def ofChar? (c : Char) : Option Digit :=
  if h : 48 ≤ c.toNat ∧ c.toNat ≤ 57 then some ⟨c.toNat - 48, by omega⟩ else none

/-- The last decimal digit of a natural number. -/
def last (n : Nat) : Digit := ⟨n % 10, Nat.mod_lt _ (by decide)⟩

/-- The number that a digit sequence stands for, after the digits of `start`. -/
def valueFrom (start : Nat) (ds : List Digit) : Nat := ds.foldl (fun n d => 10 * n + d.val) start

/-- The number that a digit sequence stands for. -/
def value (ds : List Digit) : Nat := valueFrom 0 ds

/-- The last `width` decimal digits of `n`, most significant first. -/
def padded : Nat → Nat → List Digit
  | 0, _ => []
  | width + 1, n => padded width (n / 10) ++ [last n]

end Digit

/-- How many decimal digits a natural number below the fuel has; zero has one. -/
def decimalWidthUpTo : Nat → Nat → Nat
  | 0, _ => 1
  | fuel + 1, n => if n < 10 then 1 else decimalWidthUpTo fuel (n / 10) + 1

/-- How many decimal digits a natural number has; zero has one. -/
def decimalWidth (n : Nat) : Nat := decimalWidthUpTo (n + 1) n

/-- The decimal digits of a natural number. -/
def decimalDigits (n : Nat) : List Digit := Digit.padded (decimalWidth n) n

/-- The decimal spelling of a natural number. -/
def decimalText (n : Nat) : List Char := (decimalDigits n).map Digit.char

/-- A written decimal number. -/
structure Numeral where
  /-- Whether a minus sign stands in front. -/
  negative : Bool
  /-- The part before the point. -/
  whole : Nat
  /-- The digits after the point; none means that there is no point. -/
  fraction : List Digit
  /-- The exponent of ten, if one is written. -/
  exponent : Option Int
deriving DecidableEq, Repr

namespace Numeral

/-- The numeral of a natural number. -/
def ofNat (n : Nat) : Numeral := ⟨false, n, [], none⟩

/-- Whether the numeral is written without point and exponent. -/
def isWhole (n : Numeral) : Bool := n.fraction.isEmpty && n.exponent.isNone

/-- The spelling of an exponent: `e`, its sign, its digits. -/
def exponentText (e : Int) : List Char :=
  'e' :: (if e < 0 then '-' else '+') :: decimalText e.natAbs

/-- The spelling of a numeral. -/
def text (n : Numeral) : List Char :=
  (if n.negative then ['-'] else []) ++ decimalText n.whole
    ++ (if n.fraction.isEmpty then [] else '.' :: n.fraction.map Digit.char)
    ++ (n.exponent.map exponentText).getD []

/-- The numeral without exponent for `digits * 10 ^ exponent`. -/
def positional (negative : Bool) (digits : Nat) (exponent : Int) : Numeral :=
  if 0 ≤ exponent then ⟨negative, digits * 10 ^ exponent.toNat, [], none⟩
  else
    let places := (-exponent).toNat
    ⟨negative, digits / 10 ^ places, Digit.padded places (digits % 10 ^ places), none⟩

/-- The numeral with one digit before the point for `digits * 10 ^ exponent`. -/
def scientific (negative : Bool) (digits : Nat) (exponent : Int) : Numeral :=
  let places := decimalWidth digits - 1
  ⟨negative, digits / 10 ^ places, Digit.padded places (digits % 10 ^ places),
    some (exponent + places)⟩

end Numeral

end Heapscope
