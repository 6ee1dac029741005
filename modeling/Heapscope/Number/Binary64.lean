/-!
# Binary64 numbers

A binary64 number is its 64-bit pattern: a sign, eleven bits of exponent and fifty-two bits of
fraction.  Every operation is the exact rational result, rounded once to the nearest pattern with
ties to the even one (`ofRatio`), so each is a plain definition on natural numbers.

* `value` -- what a pattern stands for: a number `±m * 2 ^ q`, an infinity, or no number at all;
* `ofRatio` -- the one rounding function, which `ofNat`, `mul`, `div` and `add` share;
* `key` -- an integer that orders the patterns of numbers as the numbers themselves are ordered;
* `roundHalfAway` -- the nearest whole number, halves away from zero.
-/

namespace Heapscope

-- powers of natural numbers are those of the core library, here and wherever Mathlib is imported
attribute [local instance (high)] instPowNat

/-- A binary64 number, held as its bit pattern. -/
structure Binary64 where
  /-- Sign, exponent and fraction, from the top bit down. -/
  bits : UInt64
deriving DecidableEq, Repr, Inhabited

namespace Binary64

/-- What a bit pattern stands for. -/
inductive Value where
  /-- Not a number. -/
  | nan
  /-- Infinity of the given sign. -/
  | infinite (negative : Bool)
  /-- The number `m * 2 ^ q`, negated when `negative` holds. -/
  | finite (negative : Bool) (m : Nat) (q : Int)
deriving DecidableEq, Repr

/-- The pattern without its sign bit. -/
def magnitude (x : Binary64) : Nat := x.bits.toNat % 2 ^ (63 : Nat)

/-- The sign bit. -/
def negative (x : Binary64) : Bool := 2 ^ (63 : Nat) ≤ x.bits.toNat

/-- The magnitude of infinity: all exponent bits set and no fraction. -/
def infinityMagnitude : Nat := 2047 * 2 ^ (52 : Nat)

/-- The pattern with the given sign and magnitude. -/
def ofMagnitude (negative : Bool) (magnitude : Nat) : Binary64 :=
  ⟨UInt64.ofNat (magnitude + if negative then 2 ^ (63 : Nat) else 0)⟩

/-- The number that a pattern stands for. -/
def value (x : Binary64) : Value :=
  let exponent : Nat := x.magnitude / 2 ^ (52 : Nat)
  let fraction : Nat := x.magnitude % 2 ^ (52 : Nat)
  if exponent = 2047 then
    if fraction = 0 then .infinite x.negative else .nan
  else if exponent = 0 then .finite x.negative fraction (-1074)
  else .finite x.negative (2 ^ (52 : Nat) + fraction) ((exponent : Int) - 1075)

def zero : Binary64 := ⟨0⟩
def one : Binary64 := ⟨0x3ff0000000000000⟩
def half : Binary64 := ⟨0x3fe0000000000000⟩
def infinity (negative : Bool) : Binary64 := ofMagnitude negative infinityMagnitude
def nan : Binary64 := ⟨0x7ff8000000000000⟩

/-- Whether the pattern is no number. -/
def isNaN (x : Binary64) : Bool := infinityMagnitude < x.magnitude

/-- Whether the pattern is a number below infinity. -/
def isFinite (x : Binary64) : Bool := x.magnitude < infinityMagnitude

/-! ## Rounding -/

/-- The quotient `num / den` rounded to the nearest whole number, ties to the even one. -/
def nearestEven (num den : Nat) : Nat :=
  let quotient := num / den
  match compare (2 * (num % den)) den with
  | .lt => quotient
  | .gt => quotient + 1
  | .eq => if quotient % 2 = 0 then quotient else quotient + 1

/-- The quotient `num / den` rounded to the nearest whole number, ties upward. -/
def nearestUp (num den : Nat) : Nat := (2 * num + den) / (2 * den)

/-- The two sides of `num / (den * 2 ^ q)`, as whole numbers. -/
def scaled (num den : Nat) (q : Int) : Nat × Nat :=
  (num * 2 ^ (-q).toNat, den * 2 ^ q.toNat)

/-- The greatest `k` with `2 ^ k ≤ num / den`, for a positive quotient. -/
def binade (num den : Nat) : Int :=
  let guess : Int := (num.log2 : Int) - den.log2
  let (n, d) := scaled num den guess
  if d ≤ n then guess else guess - 1

/-- The exponent of the last bit kept when `num / den` is rounded. -/
def unitExponent (num den : Nat) : Int := max (binade num den - 52) (-1074)

/-- The magnitude nearest to `num / den`.  A significand that rounds up to `2 ^ 53` carries into
the exponent field by itself, and whatever reaches infinity stays there. -/
def roundedMagnitude (num den : Nat) : Nat :=
  if num = 0 then 0
  else
    let q := unitExponent num den
    let (n, d) := scaled num den q
    -- below the normal range `q` stays at -1074, and the exponent field is zero by itself
    min (nearestEven n d + (q + 1074).toNat * 2 ^ (52 : Nat)) infinityMagnitude

/-- The binary64 number nearest to `±num / den`, ties to even. -/
def ofRatio (negative : Bool) (num den : Nat) : Binary64 :=
  ofMagnitude negative (roundedMagnitude num den)

/-- The binary64 number nearest to `±m * 2 ^ q`. -/
def ofDyadic (negative : Bool) (m : Nat) (q : Int) : Binary64 :=
  ofRatio negative (m * 2 ^ q.toNat) (2 ^ (-q).toNat)

/-- The binary64 number nearest to a natural number. -/
def ofNat (n : Nat) : Binary64 := ofRatio false n 1

/-- The binary64 number nearest to an integer. -/
def ofInt (n : Int) : Binary64 := ofRatio (n < 0) n.natAbs 1

/-! ## Arithmetic -/

def neg (x : Binary64) : Binary64 := ofMagnitude (!x.negative) x.magnitude

def mul (x y : Binary64) : Binary64 :=
  match x.value, y.value with
  | .nan, _ | _, .nan => nan
  | .infinite s, .infinite t => infinity (s ^^ t)
  | .infinite s, .finite t m _ => if m = 0 then nan else infinity (s ^^ t)
  | .finite s m _, .infinite t => if m = 0 then nan else infinity (s ^^ t)
  | .finite s m p, .finite t n q => ofDyadic (s ^^ t) (m * n) (p + q)

def div (x y : Binary64) : Binary64 :=
  match x.value, y.value with
  | .nan, _ | _, .nan => nan
  | .infinite _, .infinite _ => nan
  | .infinite s, .finite t _ _ => infinity (s ^^ t)
  | .finite s _ _, .infinite t => ofMagnitude (s ^^ t) 0
  | .finite s m p, .finite t n q =>
    if n = 0 then if m = 0 then nan else infinity (s ^^ t)
    else ofRatio (s ^^ t) (m * 2 ^ (p - q).toNat) (n * 2 ^ (q - p).toNat)

/-- The signed integer `±m * 2 ^ k`. -/
def signedMul (negative : Bool) (m k : Nat) : Int :=
  if negative then -(m * 2 ^ k : Nat) else (m * 2 ^ k : Nat)

def add (x y : Binary64) : Binary64 :=
  match x.value, y.value with
  | .nan, _ | _, .nan => nan
  | .infinite s, .infinite t => if s = t then infinity s else nan
  | .infinite s, .finite .. | .finite .., .infinite s => infinity s
  | .finite s m p, .finite t n q =>
    let unit := min p q
    let sum := signedMul s m (p - unit).toNat + signedMul t n (q - unit).toNat
    -- a zero sum is positive, unless both sides are negative zeros
    if sum = 0 then ofMagnitude (s && t) 0 else ofDyadic (sum < 0) sum.natAbs unit

def sub (x y : Binary64) : Binary64 := add x y.neg

instance : Mul Binary64 := ⟨mul⟩
instance : Div Binary64 := ⟨div⟩
instance : Add Binary64 := ⟨add⟩
instance : Sub Binary64 := ⟨sub⟩
instance : Neg Binary64 := ⟨neg⟩

/-! ## Order -/

/-- The magnitude with its sign: numbers are ordered as their keys are, and both zeros have key
zero. -/
def key (x : Binary64) : Int := if x.negative then -x.magnitude else x.magnitude

/-- Numeric equality: the two zeros are equal, and what is no number equals nothing. -/
def same (x y : Binary64) : Bool := !x.isNaN && !y.isNaN && x.key == y.key

/-- Numeric `x < y`; false when either side is no number. -/
def lt (x y : Binary64) : Bool := !x.isNaN && !y.isNaN && decide (x.key < y.key)

/-- Numeric `x ≤ y`; false when either side is no number. -/
def le (x y : Binary64) : Bool := !x.isNaN && !y.isNaN && decide (x.key ≤ y.key)

/-- Whether the number lies in the closed unit interval. -/
def inUnit (x : Binary64) : Bool := zero.le x && x.le one

/-! ## Whole numbers -/

/-- The whole number nearest to a finite number that is not below zero, halves upward; the sign is
ignored, and an infinity or a pattern that is no number has none. -/
def roundHalfAway (x : Binary64) : Option Nat :=
  match x.value with
  | .nan | .infinite _ => none
  | .finite _ m q => some (nearestUp (m * 2 ^ q.toNat) (2 ^ (-q).toNat))

end Binary64

end Heapscope
