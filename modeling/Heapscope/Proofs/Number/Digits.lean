import Heapscope.Number.Numeral
import Mathlib.Algebra.Group.Nat.Defs
import Mathlib.Tactic.Common

/-!
# Decimal digits

The decimal digits of a natural number stand for the number, and begin with a zero for zero only.

* `Digit.valueFrom_padded` -- what padded digits stand for, after the digits of another number;
* `value_decimalDigits` -- the digits of a number stand for it;
* `decimalDigits_eq_cons` -- the first digit.
-/

namespace Heapscope

namespace Digit

theorem ofChar?_char (d : Digit) : ofChar? d.char = some d := by
  revert d
  decide

theorem valueFrom_append (start : Nat) (ds es : List Digit) :
    valueFrom start (ds ++ es) = valueFrom (valueFrom start ds) es :=
  List.foldl_append

theorem valueFrom_cons (start : Nat) (d : Digit) (ds : List Digit) :
    valueFrom start (d :: ds) = valueFrom (10 * start + d.val) ds := rfl

theorem length_padded (width n : Nat) : (padded width n).length = width := by
  induction width generalizing n with
  | zero => rfl
  | succ width ih => rw [padded, List.length_append, ih, List.length_singleton]

/-- Padded digits stand for the last digits of a number. -/
theorem valueFrom_padded (start width n : Nat) :
    valueFrom start (padded width n) = start * 10 ^ width + n % 10 ^ width := by
  induction width generalizing n with
  | zero => simp [padded, valueFrom, Nat.mod_one]
  | succ width ih =>
    have last_val : (last n).val = n % 10 := rfl
    have split : n % 10 ^ (width + 1) = 10 * (n / 10 % 10 ^ width) + n % 10 := by
      rw [Nat.pow_succ', Nat.mod_mul]
      omega
    rw [padded, valueFrom_append, ih, valueFrom_cons, last_val, split, Nat.pow_succ]
    show 10 * (start * 10 ^ width + n / 10 % 10 ^ width) + n % 10 = _
    rw [Nat.mul_add, ← Nat.mul_assoc start, Nat.mul_comm (start * 10 ^ width) 10]
    omega

theorem value_padded {width n : Nat} (small : n < 10 ^ width) : value (padded width n) = n := by
  unfold value
  rw [valueFrom_padded, Nat.mod_eq_of_lt small]
  omega

/-- The first of padded digits. -/
theorem padded_succ (width n : Nat) :
    padded (width + 1) n = last (n / 10 ^ width) :: padded width n := by
  induction width generalizing n with
  | zero => simp [padded]
  | succ width ih =>
    rw [padded, ih (n / 10), List.cons_append, Nat.div_div_eq_div_mul, ← Nat.pow_succ']
    rfl

/-- Digits never make a number smaller. -/
theorem le_valueFrom (start : Nat) (ds : List Digit) : start ≤ valueFrom start ds := by
  induction ds generalizing start with
  | nil => exact Nat.le_refl _
  | cons d ds ih =>
    rw [valueFrom_cons]
    exact Nat.le_trans (by omega) (ih _)

end Digit

/-- The number of digits of a number: it has no more, and no fewer. -/
theorem decimalWidth_bounds (n : Nat) : ∃ width, decimalWidth n = width + 1 ∧
    n < 10 ^ (width + 1) ∧ (width ≠ 0 → 10 ^ width ≤ n) := by
  suffices general : ∀ fuel n, n < fuel → ∃ width, decimalWidthUpTo fuel n = width + 1 ∧
      n < 10 ^ (width + 1) ∧ (width ≠ 0 → 10 ^ width ≤ n) from general (n + 1) n (by omega)
  intro fuel
  induction fuel with
  | zero => exact fun n lt => absurd lt (Nat.not_lt_zero n)
  | succ fuel ih =>
    intro n lt
    rw [decimalWidthUpTo]
    by_cases digit : n < 10
    · exact ⟨0, if_pos digit, digit, fun ne => absurd rfl ne⟩
    · rw [if_neg digit]
      obtain ⟨width, eq, above, below⟩ := ih (n / 10) (by omega)
      refine ⟨width + 1, by rw [eq], ?_, fun _ => ?_⟩
      · rw [Nat.pow_succ]
        omega
      · by_cases single : width = 0
        · rw [single]
          omega
        · have le := below single
          rw [Nat.pow_succ]
          omega

/-- The digits of a number stand for it. -/
theorem value_decimalDigits (n : Nat) : Digit.value (decimalDigits n) = n := by
  obtain ⟨width, eq, lt, -⟩ := decimalWidth_bounds n
  unfold decimalDigits
  rw [eq]
  exact Digit.value_padded lt

/-- The digits of a number begin with a zero for zero only, and then there are no more. -/
theorem decimalDigits_eq_cons (n : Nat) :
    ∃ d ds, decimalDigits n = d :: ds ∧ (d = 0 → n = 0 ∧ ds = []) := by
  obtain ⟨width, eq, above, below⟩ := decimalWidth_bounds n
  refine ⟨Digit.last (n / 10 ^ width), Digit.padded width n, ?_, fun zero => ?_⟩
  · unfold decimalDigits
    rw [eq, Digit.padded_succ]
  · have first : n / 10 ^ width % 10 = 0 := congrArg Fin.val zero
    have digit : n / 10 ^ width < 10 := by
      rw [Nat.div_lt_iff_lt_mul (Nat.pow_pos (by decide)), ← Nat.pow_succ']
      exact above
    have none_left : width = 0 := by
      by_contra more
      have one_le : 1 ≤ n / 10 ^ width :=
        (Nat.one_le_div_iff (Nat.pow_pos (by decide))).mpr (below more)
      omega
    subst none_left
    rw [Nat.pow_zero, Nat.div_one] at first digit
    exact ⟨by omega, rfl⟩

end Heapscope
