import Heapscope.Proofs.Number.Rounding

/-!
# The order of numbers

Keys order the numbers, and numbers with the same key differ in the sign of zero at most.  The
numbers of the unit interval are finite, and what is computed from them is a number.

* `eq_or_zero_of_key_eq` -- what the key of a number leaves open;
* `absRat_of_key`, `isFinite_of_inUnit` -- numbers that pass for progress and for opacities;
* `isNaN_mul`, `isNaN_sub` -- products and differences of finite numbers are numbers;
* `isFinite_div_ofNat` -- quotients of whole numbers are finite.
-/

namespace Heapscope

namespace Binary64

variable {x y : Binary64}

/-- Numbers with the same key are the same, or both are zero. -/
theorem eq_or_zero_of_key_eq (eq : x.key = y.key) :
    x = y ∨ (x.magnitude = 0 ∧ y.magnitude = 0) := by
  have bound_x := x.bits.toNat_lt
  have bound_y := y.bits.toNat_lt
  have sign_x : x.negative = decide (2 ^ 63 ≤ x.bits.toNat) := rfl
  have sign_y : y.negative = decide (2 ^ 63 ≤ y.bits.toNat) := rfl
  have magnitude_x : x.magnitude = x.bits.toNat % 2 ^ 63 := rfl
  have magnitude_y : y.magnitude = y.bits.toNat % 2 ^ 63 := rfl
  have bits : x.bits.toNat = y.bits.toNat → x = y := by
    intro same
    cases x
    cases y
    congr 1
    exact UInt64.toNat_inj.mp same
  unfold key at eq
  by_cases hx : 2 ^ 63 ≤ x.bits.toNat <;> by_cases hy : 2 ^ 63 ≤ y.bits.toNat <;>
    simp only [sign_x, sign_y, hx, hy, decide_true, decide_false, if_true, Bool.false_eq_true,
      if_false] at eq
  · exact .inl (bits (by omega))
  · exact .inr (by omega)
  · exact .inr (by omega)
  · exact .inl (bits (by omega))

/-! ## Numeric equality -/

theorem same_iff : x.same y = true ↔ x.isNaN = false ∧ y.isNaN = false ∧ x.key = y.key := by
  unfold same
  simp [and_assoc]

theorem same_refl (number : x.isNaN = false) : x.same x = true := same_iff.mpr ⟨number, number, rfl⟩

theorem same_symm (h : x.same y = true) : y.same x = true := by
  obtain ⟨hx, hy, eq⟩ := same_iff.mp h
  exact same_iff.mpr ⟨hy, hx, eq.symm⟩

theorem same_trans {z : Binary64} (hxy : x.same y = true) (hyz : y.same z = true) :
    x.same z = true := by
  obtain ⟨hx, -, eq⟩ := same_iff.mp hxy
  obtain ⟨-, hz, eq'⟩ := same_iff.mp hyz
  exact same_iff.mpr ⟨hx, hz, eq.trans eq'⟩

/-! ## The unit interval -/

theorem isNaN_of_isFinite (finite : x.isFinite = true) : x.isNaN = false := by
  have below : x.magnitude < infinityMagnitude := of_decide_eq_true finite
  unfold isNaN
  rw [decide_eq_false_iff_not]
  omega

theorem le_iff : x.le y = true ↔ x.isNaN = false ∧ y.isNaN = false ∧ x.key ≤ y.key := by
  unfold le
  simp [and_assoc]

theorem key_zero : zero.key = 0 := by decide

theorem absRat_one : one.absRat = 1 := by
  have value : one.value = .finite false (2 ^ 52) (-52) := by decide
  rw [absRat_of_value value, ← two_zpow_natCast, ← two_zpow_add]
  rfl

theorem absRat_of_magnitude_eq_zero (zero : x.magnitude = 0) : x.absRat = 0 := by
  have value : x.value = .finite x.negative 0 (-1074) := by
    unfold value
    rw [zero]
    rfl
  rw [absRat_of_value value]
  exact Rat.zero_mul _

/-- Magnitudes up to that of one have an exponent below its exponent, or are that of one. -/
theorem absRat_le_one (le : x.magnitude ≤ 1023 * 2 ^ 52) : x.absRat ≤ 1 := by
  suffices bounds : ∃ m q, x.value = .finite x.negative m q ∧ ∃ k : Nat, m ≤ 2 ^ k ∧ k + q ≤ 0 by
    obtain ⟨m, q, value, k, m_le, exponents⟩ := bounds
    rw [absRat_of_value value]
    exact natCast_mul_two_zpow_le m_le exponents
  have finite : ¬x.magnitude / 2 ^ 52 = 2047 := by omega
  unfold value
  simp only [if_neg finite]
  by_cases subnormal : x.magnitude / 2 ^ 52 = 0
  · rw [if_pos subnormal]
    exact ⟨_, _, rfl, 52, by omega, by omega⟩
  · rw [if_neg subnormal]
    by_cases top : x.magnitude / 2 ^ 52 = 1023
    · exact ⟨_, _, rfl, 52, by omega, by omega⟩
    · exact ⟨_, _, rfl, 53, by omega, by omega⟩

/-- A number between zero and one by its key is finite and at most one. -/
theorem absRat_of_key (low : 0 ≤ x.key) (high : x.key ≤ one.key) :
    x.isFinite = true ∧ x.absRat ≤ 1 := by
  have one_key : one.key = 1023 * 2 ^ 52 := by decide
  have le : x.magnitude ≤ 1023 * 2 ^ 52 := by
    rw [one_key] at high
    unfold key at low high
    split at low
    · rename_i sign
      rw [if_pos sign] at high
      omega
    · rename_i sign
      rw [if_neg sign] at high
      omega
  refine ⟨?_, absRat_le_one le⟩
  unfold isFinite infinityMagnitude
  rw [decide_eq_true_eq]
  omega

theorem isFinite_of_inUnit (h : x.inUnit = true) : x.isFinite = true := by
  unfold inUnit at h
  rw [Bool.and_eq_true, le_iff, le_iff] at h
  exact (absRat_of_key (key_zero ▸ h.1.2.2) h.2.2.2).1

/-! ## What stays a number -/

theorem isNaN_mul (hx : x.isFinite = true) (hy : y.isFinite = true) : (x * y).isNaN = false := by
  obtain ⟨s, m, p, value_x⟩ := isFinite_iff.mp hx
  obtain ⟨t, n, q, value_y⟩ := isFinite_iff.mp hy
  show (mul x y).isNaN = false
  unfold mul
  rw [value_x, value_y]
  exact isNaN_ofRatio _ _ _

theorem isFinite_neg (hx : x.isFinite = true) : x.neg.isFinite = true := by
  have below : x.magnitude < infinityMagnitude := of_decide_eq_true hx
  have small : x.magnitude < 2 ^ 63 := Nat.mod_lt _ (by decide)
  unfold neg isFinite
  rw [magnitude_ofMagnitude _ small, decide_eq_true_eq]
  exact below

theorem isNaN_add (hx : x.isFinite = true) (hy : y.isFinite = true) : (x + y).isNaN = false := by
  obtain ⟨s, m, p, value_x⟩ := isFinite_iff.mp hx
  obtain ⟨t, n, q, value_y⟩ := isFinite_iff.mp hy
  show (add x y).isNaN = false
  unfold add
  rw [value_x, value_y]
  simp only
  split
  · cases s <;> cases t <;> decide
  · exact isNaN_ofRatio _ _ _

theorem isNaN_sub (hx : x.isFinite = true) (hy : y.isFinite = true) : (x - y).isNaN = false :=
  isNaN_add hx (isFinite_neg hy)

/-- A whole number below `2 ^ 64` rounds to a number of the same size. -/
theorem absRat_ofNat_bounds {n : Nat} (small : n < 2 ^ 64) : (ofNat n).isFinite = true ∧
    (ofNat n).absRat ≤ 2 ^ (65 : Int) ∧ (n ≠ 0 → 1 ≤ (ofNat n).absRat) := by
  by_cases kept : n < 2 ^ 53
  · obtain ⟨finite, absRat⟩ := absRat_ofNat kept
    rw [absRat, show (2 : Rat) ^ (65 : Int) = ((2 ^ 65 : Nat) : Rat) from two_zpow_natCast 65]
    refine ⟨finite, Rat.natCast_le_natCast.mpr (by omega), fun positive => ?_⟩
    exact Rat.natCast_le_natCast.mpr (Nat.one_le_iff_ne_zero.mpr positive)
  · have below : (n : Rat) ≤ 2 ^ (64 : Int) := by
      rw [show (2 : Rat) ^ (64 : Int) = ((2 ^ 64 : Nat) : Rat) from two_zpow_natCast 64]
      exact Rat.natCast_le_natCast.mpr (by omega)
    have above : ((2 ^ 53 : Nat) : Rat) ≤ n := Rat.natCast_le_natCast.mpr (by omega)
    obtain ⟨finite, near_above, near_below⟩ := ofRatio_near false
      (show (n : Rat) * (1 : Nat) = n from Rat.mul_one _) (by decide) (by omega) (by omega) below
    have error : (2 : Rat) ^ (64 - 54 : Int) = 1024 := by rfl
    have double : (2 : Rat) ^ (65 : Int) = 2 ^ (64 : Int) * 2 := Rat.zpow_add_one two_ne_zero 64
    have least : ((2 ^ 53 : Nat) : Rat) = 9007199254740992 := by rfl
    rw [error] at near_above near_below
    rw [least] at above
    refine ⟨finite, ?_, fun _ => ?_⟩
    · rw [double]
      unfold ofNat
      grind
    · unfold ofNat
      grind

/-- The quotient of two whole numbers is finite, unless the second one is zero. -/
theorem isFinite_div_ofNat {a b : Nat} (ha : a < 2 ^ 64) (hb : b < 2 ^ 64) (positive : b ≠ 0) :
    (ofNat a / ofNat b).isFinite = true := by
  obtain ⟨finite_a, bound_a, -⟩ := absRat_ofNat_bounds ha
  obtain ⟨finite_b, -, bound_b⟩ := absRat_ofNat_bounds hb
  have one_le := bound_b positive
  have nonzero : (ofNat b).absRat ≠ 0 := by grind
  have quotient : (ofNat a).absRat / (ofNat b).absRat * (ofNat b).absRat = (ofNat a).absRat :=
    Rat.div_mul_cancel nonzero
  have le : (ofNat a).absRat / (ofNat b).absRat ≤ 2 ^ (65 : Int) := by
    apply Rat.le_of_mul_le_mul_right _ (show 0 < (ofNat b).absRat by grind)
    have scaled := Rat.mul_le_mul_of_nonneg_left one_le (Rat.le_of_lt (two_zpow_pos 65))
    rw [quotient]
    grind
  exact (div_near finite_a finite_b nonzero quotient (by omega) (by omega) le).1

end Binary64

end Heapscope
