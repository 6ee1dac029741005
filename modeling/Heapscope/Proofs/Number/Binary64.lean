import Heapscope.Number.Binary64
import Mathlib.Algebra.Group.Int.Defs
import Mathlib.Algebra.Group.Nat.Defs
import Mathlib.Tactic.Common

/-!
# Quotients of whole numbers

Whole numbers below `2 ^ 64` are far from the ends of the range of binary64 numbers, so they round
to finite numbers, and to zero only from zero.  Their quotients are numbers therefore, and can be
compared.

* `isNaN_div_ofNat` -- the quotient of two whole numbers is a number;
* `one_le_eq_not_lt` -- a number is at least one or below one.
-/

namespace Heapscope

namespace Binary64

theorem magnitude_ofMagnitude (negative : Bool) {m : Nat} (small : m < 2 ^ 63) :
    (ofMagnitude negative m).magnitude = m := by
  unfold magnitude ofMagnitude
  rw [UInt64.toNat_ofNat']
  cases negative with
  | false => simp only [Bool.false_eq_true, if_false]; omega
  | true => simp only [if_true]; omega

theorem negative_ofMagnitude (negative : Bool) {m : Nat} (small : m < 2 ^ 63) :
    (ofMagnitude negative m).negative = negative := by
  unfold Binary64.negative ofMagnitude
  rw [UInt64.toNat_ofNat']
  cases negative with
  | false => simp only [Bool.false_eq_true, if_false, decide_eq_false_iff_not]; omega
  | true => simp only [if_true, decide_eq_true_eq]; omega

theorem roundedMagnitude_le (num den : Nat) : roundedMagnitude num den ≤ infinityMagnitude := by
  unfold roundedMagnitude
  split
  · exact Nat.zero_le _
  · exact Nat.min_le_right _ _

/-- Rounding gives a number, or an infinity. -/
theorem isNaN_ofRatio (negative : Bool) (num den : Nat) :
    (ofRatio negative num den).isNaN = false := by
  have le := roundedMagnitude_le num den
  have small : roundedMagnitude num den < 2 ^ 63 := Nat.lt_of_le_of_lt le (by decide)
  unfold isNaN ofRatio
  rw [magnitude_ofMagnitude negative small, decide_eq_false_iff_not]
  exact Nat.not_lt_of_le le

theorem nearestEven_le (num den : Nat) : nearestEven num den ≤ num / den + 1 := by
  unfold nearestEven
  simp only
  split
  · omega
  · omega
  · split <;> omega

theorem binade_ofNat (n : Nat) (positive : n ≠ 0) : binade n 1 = (n.log2 : Int) := by
  have le := Nat.log2_self_le positive
  have one : Nat.log2 1 = 0 := by decide
  unfold binade scaled
  simp [one, le]

/-- A positive whole number below `2 ^ 64` has an exponent in the middle of the range. -/
theorem roundedMagnitude_ofNat {n : Nat} (positive : n ≠ 0) (small : n < 2 ^ 64) :
    2 ^ 52 ≤ roundedMagnitude n 1 ∧ roundedMagnitude n 1 < infinityMagnitude := by
  have log_lt : n.log2 < 64 := (Nat.log2_lt positive).mpr small
  have unit : unitExponent n 1 = (n.log2 : Int) - 52 := by
    unfold unitExponent
    rw [binade_ofNat n positive]
    omega
  -- scaled by its own exponent the number has 53 bits
  have quotient : n * 2 ^ (-((n.log2 : Int) - 52)).toNat / (1 * 2 ^ ((n.log2 : Int) - 52).toNat)
      < 2 ^ 53 := by
    rw [Nat.one_mul, Nat.div_lt_iff_lt_mul (Nat.pow_pos (by decide)), ← Nat.pow_add]
    calc n * 2 ^ (-((n.log2 : Int) - 52)).toNat
        < 2 ^ (n.log2 + 1) * 2 ^ (-((n.log2 : Int) - 52)).toNat :=
          Nat.mul_lt_mul_of_pos_right Nat.lt_log2_self (Nat.pow_pos (by decide))
      _ = 2 ^ (n.log2 + 1 + (-((n.log2 : Int) - 52)).toNat) := (Nat.pow_add _ _ _).symm
      _ ≤ 2 ^ (53 + ((n.log2 : Int) - 52).toNat) := Nat.pow_le_pow_right (by decide) (by omega)
  have rounded := nearestEven_le (n * 2 ^ (-((n.log2 : Int) - 52)).toNat)
    (1 * 2 ^ ((n.log2 : Int) - 52).toNat)
  unfold roundedMagnitude scaled
  rw [if_neg positive, unit]
  simp only
  generalize nearestEven _ _ = m at rounded ⊢
  have exponent : ((n.log2 : Int) - 52 + 1074).toNat = n.log2 + 1022 := by omega
  rw [exponent]
  unfold infinityMagnitude
  constructor
  · omega
  · omega

/-- A whole number below `2 ^ 64` rounds to a finite number, which is zero only for zero. -/
theorem value_ofNat {n : Nat} (small : n < 2 ^ 64) :
    ∃ m q, (ofNat n).value = .finite false m q ∧ (m = 0 → n = 0) := by
  have magnitude : (ofNat n).magnitude = roundedMagnitude n 1 :=
    magnitude_ofMagnitude false (Nat.lt_of_le_of_lt (roundedMagnitude_le n 1) (by decide))
  have positive : (ofNat n).negative = false :=
    negative_ofMagnitude false (Nat.lt_of_le_of_lt (roundedMagnitude_le n 1) (by decide))
  unfold value
  rw [magnitude, positive]
  by_cases zero : n = 0
  · refine ⟨0, -1074, ?_, fun _ => zero⟩
    rw [zero]
    rfl
  · obtain ⟨le, lt⟩ := roundedMagnitude_ofNat zero small
    unfold infinityMagnitude at lt
    have finite : ¬roundedMagnitude n 1 / 2 ^ 52 = 2047 := by omega
    have normal : ¬roundedMagnitude n 1 / 2 ^ 52 = 0 := by omega
    simp only [if_neg finite, if_neg normal]
    exact ⟨_, _, rfl, by omega⟩

/-- The quotient of two whole numbers is a number, unless the second one is zero. -/
theorem isNaN_div_ofNat {a b : Nat} (ha : a < 2 ^ 64) (hb : b < 2 ^ 64) (positive : b ≠ 0) :
    (ofNat a / ofNat b).isNaN = false := by
  obtain ⟨m, p, value_a, -⟩ := value_ofNat ha
  obtain ⟨n, q, value_b, nonzero⟩ := value_ofNat hb
  show (div (ofNat a) (ofNat b)).isNaN = false
  unfold div
  rw [value_a, value_b]
  simp only
  rw [if_neg fun zero => positive (nonzero zero)]
  exact isNaN_ofRatio _ _ _

/-- A number is at least one or below one. -/
theorem one_le_eq_not_lt {x : Binary64} (number : x.isNaN = false) : one.le x = !x.lt one := by
  have one_number : one.isNaN = false := by decide
  unfold le lt
  rw [number, one_number]
  simp only [Bool.not_false, Bool.true_and]
  rw [← decide_not]
  exact decide_eq_decide.mpr (by omega)

end Binary64

end Heapscope
