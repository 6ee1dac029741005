import Heapscope.Number.Binary64
import Heapscope.Number.Numeral

/-!
# The fewest digits that read back

Every positive binary64 number is the nearest one to a whole interval of reals.  `shortest` finds
the decimal with the fewest digits in that interval and, among those, the one closest to the number
itself.  The search is exact: at each length it tests the two neighbours of the number on the grid
of that length.

Two spellings use it, and both are values of one record:

* `Spelling.plain` -- never an exponent, no point in whole numbers; a tie goes up;
* `Spelling.wire` -- whole numbers end in `.0`, numbers outside `[1e-5, 1e16)` have an exponent;
  a tie goes to the even digit.
-/

namespace Heapscope

-- powers of natural numbers are those of the core library, here and wherever Mathlib is imported
attribute [local instance (high)] instPowNat

/-- The decimal number `digits * 10 ^ exponent`. -/
structure Decimal where
  digits : Nat
  exponent : Int
deriving DecidableEq, Repr

namespace Decimal

/-- Moves the trailing zeros of the digits into the exponent, at most `fuel` of them. -/
def strip : Nat → Decimal → Decimal
  | 0, d => d
  | fuel + 1, d =>
    if d.digits % 10 = 0 then strip fuel ⟨d.digits / 10, d.exponent + 1⟩ else d

/-- Compares `a * 10 ^ i` with `n * 2 ^ j`. -/
def compareScaled (a : Nat) (i : Int) (n : Nat) (j : Int) : Ordering :=
  compare (a * 10 ^ i.toNat * 2 ^ (-j).toNat) (n * 2 ^ j.toNat * 10 ^ (-i).toNat)

/-- Whether the decimal lies among the reals that round to `m * 2 ^ q`: from halfway to the number
below up to halfway to the number above, the ends included when `m` is even.  Below a power of two
the gap is half as wide. -/
def readsBack (m : Nat) (q : Int) (d : Decimal) : Bool :=
  let low := if m = 2 ^ (52 : Nat) ∧ q ≠ -1074 then 4 * m - 1 else 4 * m - 2
  let below := compareScaled d.digits d.exponent low (q - 2)
  let above := compareScaled d.digits d.exponent (4 * m + 2) (q - 2)
  let ends := m % 2 == 0
  (below == .gt || (ends && below == .eq)) && (above == .lt || (ends && above == .eq))

/-- The least `k` with `m * 2 ^ q < 10 ^ k`, searched upward from `k` for at most `fuel` steps. -/
def scaleFrom (m : Nat) (q : Int) : Nat → Int → Int
  | 0, k => k
  | fuel + 1, k => if compareScaled 1 k m q == .gt then k else scaleFrom m q fuel (k + 1)

/-- The number of decimal digits before the point of `m * 2 ^ q`; zero or negative for small
numbers.  The estimate from the binary logarithm is never above it and at most two below. -/
def scale (m : Nat) (q : Int) : Int :=
  scaleFrom m q 4 (((m.log2 : Int) + q) * 30103 / 100000 - 1)

/-- How a number halfway between two decimals of the shortest length is written. -/
inductive Tie where
  /-- By the upper decimal. -/
  | up
  /-- By the decimal with the even last digit. -/
  | even
deriving DecidableEq, Repr

/-- The neighbours of `m * 2 ^ q` on the grid of step `10 ^ exponent`, restricted to those that read
back; of two such the closer. -/
def onGrid (tie : Tie) (m : Nat) (q : Int) (exponent : Int) : Option Decimal :=
  let num := m * 2 ^ q.toNat * 10 ^ (-exponent).toNat
  let den := 2 ^ (-q).toNat * 10 ^ exponent.toNat
  let low : Decimal := ⟨num / den, exponent⟩
  let high : Decimal := ⟨num / den + 1, exponent⟩
  match readsBack m q low, readsBack m q high with
  | false, false => none
  | true, false => some low
  | false, true => some high
  | true, true =>
    match compare (2 * (num % den)) den with
    | .lt => some low
    | .gt => some high
    | .eq => if tie = .even ∧ low.digits % 2 = 0 then some low else some high

/-- The shortest decimal for the positive number `m * 2 ^ q`.  Seventeen digits are always enough;
the exact value stands in for the case that never arises. -/
def shortest (tie : Tie) (m : Nat) (q : Int) : Decimal :=
  let k := scale m q
  let exact : Decimal :=
    if 0 ≤ q then ⟨m * 2 ^ q.toNat, 0⟩ else ⟨m * 5 ^ (-q).toNat, q⟩
  -- the grid with one digit first, then finer ones
  let found := (List.range 17).findSome? fun n => onGrid tie m q (k - (n + 1 : Nat))
  strip 400 (found.getD exact)

end Decimal

/-- The decisions in which the spellings of binary64 numbers differ. -/
structure Spelling where
  /-- Which of two equally close shortest decimals is taken. -/
  tie : Decimal.Tie
  /-- Whether whole numbers carry a fraction of one zero. -/
  pointZero : Bool
  /-- The exponents of the leading digit that are written without an exponent; all when absent. -/
  positional : Option (Int × Int)

namespace Spelling

/-- Messages and listings: never an exponent, and no point in whole numbers. -/
def plain : Spelling := ⟨.up, false, none⟩

/-- The wire form: whole numbers end in `.0`, and an exponent appears from `1e16` on and below
`1e-5`. -/
def wire : Spelling := ⟨.even, true, some (-5, 16)⟩

/-- Gives a numeral without fraction the fraction `.0`. -/
def withPoint (n : Numeral) : Numeral :=
  if n.fraction.isEmpty then { n with fraction := Digit.padded 1 0 } else n

/-- The numeral of the number `±m * 2 ^ q`. -/
def numeral (style : Spelling) (negative : Bool) (m : Nat) (q : Int) : Numeral :=
  let point := fun n => if style.pointZero then withPoint n else n
  if m = 0 then point ⟨negative, 0, [], none⟩
  else
    let d := Decimal.shortest style.tie m q
    let leading : Int := d.exponent + (decimalWidth d.digits - 1 : Nat)
    match style.positional with
    | none => point (Numeral.positional negative d.digits d.exponent)
    | some (low, high) =>
      if low ≤ leading ∧ leading < high then
        point (Numeral.positional negative d.digits d.exponent)
      else Numeral.scientific negative d.digits d.exponent

end Spelling

namespace Binary64

/-- The numeral of a finite number in the wire form. -/
def wireNumeral? (x : Binary64) : Option Numeral :=
  match x.value with
  | .finite s m q => some (Spelling.wire.numeral s m q)
  | _ => none

/-- The spelling of a number in messages. -/
def text (x : Binary64) : String :=
  match x.value with
  | .nan => "NaN"
  | .infinite s => if s then "-inf" else "inf"
  | .finite s m q => String.ofList (Spelling.plain.numeral s m q).text

/-- The spelling of a number with a fixed number of digits after the point: the exact value rounded,
ties to the even digit. -/
def textPlaces (places : Nat) (x : Binary64) : String :=
  match x.value with
  | .nan => "NaN"
  | .infinite s => if s then "-inf" else "inf"
  | .finite s m q =>
    let units := nearestEven (10 ^ places * m * 2 ^ q.toNat) (2 ^ (-q).toNat)
    String.ofList (Numeral.positional s units (-places)).text

end Binary64

end Heapscope
