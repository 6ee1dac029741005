import Heapscope.Proofs.Number.Order

/-!
# Rounding keeps the order

A greater quotient never rounds to a smaller number, so equal quotients round to the same number,
however they are written, and products and quotients by one number keep the order.

* `nearestEven_mono`, `significand_mono` -- the nearest whole number, and the significand;
* `ofRatio_congr` -- the rounding of a quotient depends on the quotient only;
* `absRat_ofRatio_mono`, `absRat_mul_mono`, `absRat_div_mono` -- what rounds to what;
* `div_ofNat` -- the quotient of two small whole numbers is rounded once;
* `div_ofNat_near` -- the share of a whole that a smaller whole number is.
-/

namespace Heapscope

namespace Binary64

/-! ## The nearest whole number -/

/-- Halfway between two whole numbers the even one is taken. -/
theorem nearestEven_even {n d k : Nat} (hd : 0 < d) (half : 2 * n = (2 * k + 1) * d) :
    nearestEven n d % 2 = 0 := by
  have expand : (2 * k + 1) * d = 2 * (k * d) + d := by
    rw [Nat.add_mul, Nat.one_mul, Nat.mul_assoc]
  have quotient : n / d = k := by
    refine Nat.div_eq_of_lt_le (by omega) ?_
    rw [Nat.add_mul, Nat.one_mul]
    omega
  have whole := Nat.div_add_mod' n d
  rw [quotient] at whole
  have tie : compare (2 * (n % d)) d = .eq := Nat.compare_eq_eq.mpr (by omega)
  unfold nearestEven
  simp only [tie, quotient]
  split
  · assumption
  · omega

/-- A greater quotient has no smaller nearest whole number: two that are taken in the wrong order
would both be halfway, and even. -/
theorem nearestEven_mono {n d n' d' : Nat} (hd : 0 < d) (hd' : 0 < d') (le : n * d' ≤ n' * d) :
    nearestEven n d ≤ nearestEven n' d' := by
  by_contra gt
  obtain ⟨above, -⟩ := nearestEven_bounds n hd
  obtain ⟨-, below⟩ := nearestEven_bounds n' hd'
  obtain ⟨k, hk⟩ : ∃ k, nearestEven n' d' = k := ⟨_, rfl⟩
  have next : (k + 1) * d ≤ nearestEven n d * d := Nat.mul_le_mul_right d (by omega)
  have left : (2 * k + 1) * d ≤ 2 * n := by
    have expand : (2 * k + 1) * d + d = 2 * ((k + 1) * d) := by grind
    omega
  have right : 2 * n' ≤ (2 * k + 1) * d' := by
    have expand : 2 * (k * d') + d' = (2 * k + 1) * d' := by grind
    rw [hk] at below
    omega
  have left_scaled := Nat.mul_le_mul_right d' left
  have right_scaled := Nat.mul_le_mul_right d right
  have half : 2 * n = (2 * k + 1) * d := Nat.eq_of_mul_eq_mul_right hd' (by grind)
  have half' : 2 * n' = (2 * k + 1) * d' := Nat.eq_of_mul_eq_mul_right hd (by grind)
  have only_next : nearestEven n d ≤ k + 1 := by
    refine Nat.le_of_mul_le_mul_right (c := d) ?_ hd
    have expand : 2 * ((k + 1) * d) = (2 * k + 1) * d + d := by grind
    omega
  have even := nearestEven_even hd half
  have even' := nearestEven_even hd' half'
  omega

/-! ## One rounding -/

section Rounded

variable {num den num' den' : Nat} {v v' : Rat}

theorem binade_mono (hv : v * den = num) (hv' : v' * den' = num') (hn : num ≠ 0) (hd : den ≠ 0)
    (hd' : den' ≠ 0) (hn' : num' ≠ 0) (le : v ≤ v') : binade num den ≤ binade num' den' := by
  have low := (binade_bounds hv hn hd).1
  have high := (binade_bounds hv' hn' hd').2
  by_contra gt
  have step := two_zpow_le (show binade num' den' + 1 ≤ binade num den by omega)
  grind

/-- A greater quotient has a significand that is no smaller at the same exponent, or one of full
length at a greater exponent. -/
theorem significand_mono (hv : v * den = num) (hv' : v' * den' = num') (hn : num ≠ 0)
    (hd : den ≠ 0) (hd' : den' ≠ 0) (hn' : num' ≠ 0) (le : v ≤ v') :
    (unitExponent num den = unitExponent num' den' ∧ significand num den ≤ significand num' den') ∨
      (unitExponent num den < unitExponent num' den' ∧ significand num den ≤ 2 ^ 53 ∧
        2 ^ 52 ≤ significand num' den') := by
  have binades := binade_mono hv hv' hn hd hd' hn' le
  have unit : unitExponent num den = max (binade num den - 52) (-1074) := rfl
  have unit' : unitExponent num' den' = max (binade num' den' - 52) (-1074) := rfl
  by_cases same : unitExponent num den = unitExponent num' den'
  · refine .inl ⟨same, ?_⟩
    have sides := scaled_eq hv (unitExponent num den)
    have sides' := scaled_eq hv' (unitExponent num den)
    have pos := scaled_snd_pos num hd (unitExponent num den)
    have pos' := scaled_snd_pos num' hd' (unitExponent num den)
    unfold significand
    rw [← same]
    refine nearestEven_mono pos pos' ?_
    generalize scaled num den (unitExponent num den) = pair at sides pos
    generalize scaled num' den' (unitExponent num den) = pair' at sides' pos'
    obtain ⟨n, d⟩ := pair
    obtain ⟨n', d'⟩ := pair'
    simp only at sides sides' pos pos' ⊢
    apply Rat.natCast_le_natCast.mp
    apply Rat.le_of_mul_le_mul_right _ (two_zpow_pos (unitExponent num den))
    have product : (0 : Rat) ≤ d * d' := Rat.mul_nonneg Rat.natCast_nonneg Rat.natCast_nonneg
    have left : (n : Rat) * d' * 2 ^ unitExponent num den = v * (d * d') := by grind
    have right : (n' : Rat) * d * 2 ^ unitExponent num den = v' * (d * d') := by grind
    rw [Rat.natCast_mul, Rat.natCast_mul, left, right]
    exact Rat.mul_le_mul_of_nonneg_right le product
  · obtain ⟨sig_le, -⟩ := significand_bounds hv hn hd
    obtain ⟨-, normal⟩ := significand_bounds hv' hn' hd'
    exact .inr ⟨by omega, sig_le, normal.resolve_right (by omega)⟩

theorem num_ne_zero_of_le (hv : v * den = num) (hv' : v' * den' = num') (hn : num ≠ 0)
    (hd : den ≠ 0) (hd' : den' ≠ 0) (le : v ≤ v') : num' ≠ 0 := by
  rintro rfl
  have at_least := (binade_bounds hv hn hd).1
  have positive := two_zpow_pos (binade num den)
  have den_ne : (den' : Rat) ≠ 0 := mt Rat.natCast_eq_zero_iff.mp hd'
  have zero : v' = 0 := (Rat.mul_eq_zero.mp hv').resolve_right den_ne
  grind

/-- A greater quotient has no smaller magnitude. -/
theorem roundedMagnitude_mono (hv : v * den = num) (hv' : v' * den' = num') (hd : den ≠ 0)
    (hd' : den' ≠ 0) (le : v ≤ v') : roundedMagnitude num den ≤ roundedMagnitude num' den' := by
  by_cases hn : num = 0
  · unfold roundedMagnitude
    rw [if_pos hn]
    exact Nat.zero_le _
  · have hn' := num_ne_zero_of_le hv hv' hn hd hd' le
    have low := le_unitExponent num den
    rw [roundedMagnitude_eq hn, roundedMagnitude_eq hn']
    rcases significand_mono hv hv' hn hd hd' hn' le with ⟨same, le⟩ | ⟨lt, le, ge⟩
    · omega
    · omega

/-- The rounding of a quotient depends on the quotient only. -/
theorem ofRatio_congr (negative : Bool) (hv : v * den = num) (hv' : v * den' = num') (hd : den ≠ 0)
    (hd' : den' ≠ 0) : ofRatio negative num den = ofRatio negative num' den' := by
  unfold ofRatio
  rw [Nat.le_antisymm (roundedMagnitude_mono hv hv' hd hd' Rat.le_refl)
    (roundedMagnitude_mono hv' hv hd' hd Rat.le_refl)]

theorem unitExponent_le (hv : v * den = num) (hn : num ≠ 0) (hd : den ≠ 0)
    (le : v ≤ 2 ^ (1022 : Int)) : unitExponent num den ≤ 970 := by
  have binade := binade_le hv hn hd le
  unfold unitExponent
  omega

/-- A greater quotient rounds to no smaller number. -/
theorem absRat_ofRatio_mono (negative negative' : Bool) (hv : v * den = num)
    (hv' : v' * den' = num') (hd : den ≠ 0) (hd' : den' ≠ 0) (le : v ≤ v')
    (range : v' ≤ 2 ^ (1022 : Int)) :
    (ofRatio negative num den).absRat ≤ (ofRatio negative' num' den').absRat := by
  by_cases hn : num = 0
  · have zero : (ofRatio negative num den).magnitude = 0 := by
      rw [hn]
      exact magnitude_ofMagnitude negative (m := 0) (by decide)
    rw [absRat_of_magnitude_eq_zero zero]
    exact absRat_nonneg _
  · have hn' := num_ne_zero_of_le hv hv' hn hd hd' le
    have unit_pos := two_zpow_pos (unitExponent num den)
    have unit_pos' := two_zpow_pos (unitExponent num' den')
    rw [(absRat_ofRatio negative hv hn hd (unitExponent_le hv hn hd (Rat.le_trans le range))).2,
      (absRat_ofRatio negative' hv' hn' hd' (unitExponent_le hv' hn' hd' range)).2]
    rcases significand_mono hv hv' hn hd hd' hn' le with ⟨same, le⟩ | ⟨lt, le, ge⟩
    · rw [same]
      exact Rat.mul_le_mul_of_nonneg_right (Rat.natCast_le_natCast.mpr le) (Rat.le_of_lt unit_pos')
    · -- the next exponent begins where this one ends
      have top : (significand num den : Rat) ≤ ((2 ^ 53 : Nat) : Rat) :=
        Rat.natCast_le_natCast.mpr le
      have bottom : ((2 ^ 52 : Nat) : Rat) ≤ significand num' den' :=
        Rat.natCast_le_natCast.mpr ge
      calc (significand num den : Rat) * 2 ^ unitExponent num den
          ≤ ((2 ^ 53 : Nat) : Rat) * 2 ^ unitExponent num den :=
            Rat.mul_le_mul_of_nonneg_right top (Rat.le_of_lt unit_pos)
        _ = ((2 ^ 52 : Nat) : Rat) * 2 ^ (unitExponent num den + 1) := by
            rw [Rat.zpow_add_one two_ne_zero, Rat.natCast_pow, Rat.natCast_pow]
            grind
        _ ≤ ((2 ^ 52 : Nat) : Rat) * 2 ^ unitExponent num' den' :=
            Rat.mul_le_mul_of_nonneg_left (two_zpow_le (by omega)) Rat.natCast_nonneg
        _ ≤ significand num' den' * 2 ^ unitExponent num' den' :=
            Rat.mul_le_mul_of_nonneg_right bottom (Rat.le_of_lt unit_pos')

end Rounded

/-! ## Operations -/

variable {x x' y : Binary64}

theorem absRat_ofNat_mono {m n : Nat} (le : m ≤ n) (small : n < 2 ^ 64) :
    (ofNat m).absRat ≤ (ofNat n).absRat := by
  have range : (n : Rat) ≤ 2 ^ (1022 : Int) := by
    have bound : (n : Rat) ≤ ((2 ^ 64 : Nat) : Rat) := Rat.natCast_le_natCast.mpr (by omega)
    rw [← two_zpow_natCast] at bound
    exact Rat.le_trans bound (two_zpow_le (by decide))
  exact absRat_ofRatio_mono false false (Rat.mul_one _) (Rat.mul_one _) (by decide) (by decide)
    (Rat.natCast_le_natCast.mpr le) range

/-- Products by one number keep the order. -/
theorem absRat_mul_mono (hx : x.isFinite = true) (hx' : x'.isFinite = true)
    (hy : y.isFinite = true) (le : x.absRat ≤ x'.absRat)
    (range : x'.absRat * y.absRat ≤ 2 ^ (1022 : Int)) : (x * y).absRat ≤ (x' * y).absRat := by
  obtain ⟨num, den, hd, product, eq⟩ := mul_eq_ofRatio hx hy
  obtain ⟨num', den', hd', product', eq'⟩ := mul_eq_ofRatio hx' hy
  rw [eq, eq']
  exact absRat_ofRatio_mono _ _ product product' hd hd'
    (Rat.mul_le_mul_of_nonneg_right le (absRat_nonneg y)) range

/-- Quotients by one number keep the order. -/
theorem absRat_div_mono (hx : x.isFinite = true) (hx' : x'.isFinite = true)
    (hy : y.isFinite = true) (one_le : 1 ≤ y.absRat) (le : x.absRat ≤ x'.absRat)
    (range : x'.absRat ≤ 2 ^ (1022 : Int)) : (x / y).absRat ≤ (x' / y).absRat := by
  have nonzero : y.absRat ≠ 0 := by grind
  have quotient := Rat.div_mul_cancel (a := x.absRat) nonzero
  have quotient' := Rat.div_mul_cancel (a := x'.absRat) nonzero
  obtain ⟨num, den, hd, ratio, eq⟩ := div_eq_ofRatio hx hy nonzero quotient
  obtain ⟨num', den', hd', ratio', eq'⟩ := div_eq_ofRatio hx' hy nonzero quotient'
  have pos : 0 < y.absRat := by grind
  rw [eq, eq']
  refine absRat_ofRatio_mono _ _ ratio ratio' hd hd' ?_ ?_
  · apply Rat.le_of_mul_le_mul_right _ pos
    rw [quotient, quotient']
    exact le
  · apply Rat.le_of_mul_le_mul_right _ pos
    have scaled := Rat.mul_le_mul_of_nonneg_left one_le (Rat.le_of_lt (two_zpow_pos 1022))
    rw [quotient']
    grind

theorem negative_ofNat {n : Nat} (small : n < 2 ^ 64) : (ofNat n).negative = false := by
  obtain ⟨m, q, value, -⟩ := value_ofNat small
  exact (negative_of_value value).symm

theorem negative_div_ofNat {a b : Nat} (ha : a < 2 ^ 64) (hb : b < 2 ^ 64) (positive : b ≠ 0) :
    (ofNat a / ofNat b).negative = false := by
  obtain ⟨finite_a, -, -⟩ := absRat_ofNat_bounds ha
  obtain ⟨finite_b, -, one_le⟩ := absRat_ofNat_bounds hb
  have nonzero : (ofNat b).absRat ≠ 0 := by
    have at_least := one_le positive
    grind
  obtain ⟨num, den, -, -, eq⟩ := div_eq_ofRatio finite_a finite_b nonzero
    (Rat.div_mul_cancel nonzero)
  rw [eq, negative_ofNat ha, negative_ofNat hb]
  exact negative_ofMagnitude false (Nat.lt_of_le_of_lt (roundedMagnitude_le num den) (by decide))

/-- The quotient of two whole numbers that are kept is rounded once, however it is written. -/
theorem div_ofNat {a b num den : Nat} (ha : a < 2 ^ 53) (hb : b < 2 ^ 53) (positive : b ≠ 0)
    (hd : den ≠ 0) (same : a * den = num * b) : ofNat a / ofNat b = ofRatio false num den := by
  obtain ⟨finite_a, absRat_a⟩ := absRat_ofNat ha
  obtain ⟨finite_b, absRat_b⟩ := absRat_ofNat hb
  have den_ne : (den : Rat) ≠ 0 := mt Rat.natCast_eq_zero_iff.mp hd
  have quotient : (num : Rat) / den * den = num := Rat.div_mul_cancel den_ne
  have ratio : (num : Rat) / den * (ofNat b).absRat = (ofNat a).absRat := by
    have cross : (a : Rat) * den = num * b := by
      rw [← Rat.natCast_mul, ← Rat.natCast_mul, same]
    rw [absRat_a, absRat_b]
    grind
  have nonzero : (ofNat b).absRat ≠ 0 := by
    rw [absRat_b]
    exact mt Rat.natCast_eq_zero_iff.mp positive
  obtain ⟨n, d, hd', written, eq⟩ := div_eq_ofRatio finite_a finite_b nonzero ratio
  rw [eq, negative_ofNat (by omega), negative_ofNat (by omega)]
  exact ofRatio_congr _ written quotient hd' hd

/-! ## Shares of a whole -/

/-- Whole numbers are off by at most one part in `2 ^ 53`. -/
theorem ofNat_near {n : Nat} (small : n < 2 ^ 64) :
    Near (n * 2 ^ (-53 : Int)) (ofNat n).absRat n := by
  have unit_pos := two_zpow_pos (-53)
  have n_nonneg : (0 : Rat) ≤ n := Rat.natCast_nonneg
  have error_nonneg := Rat.mul_nonneg n_nonneg (Rat.le_of_lt unit_pos)
  by_cases kept : n < 2 ^ 53
  · rw [(absRat_ofNat kept).2]
    constructor
    · grind
    · grind
  · have positive : n ≠ 0 := by omega
    have log : n.log2 < 64 := (Nat.log2_lt positive).mpr small
    have above : (n : Rat) ≤ 2 ^ (n.log2 + 1 : Int) := by
      rw [show (2 : Rat) ^ (n.log2 + 1 : Int) = ((2 ^ (n.log2 + 1) : Nat) : Rat) from
        two_zpow_natCast (n.log2 + 1)]
      exact Rat.natCast_le_natCast.mpr (Nat.le_of_lt Nat.lt_log2_self)
    have below : (2 : Rat) ^ (n.log2 : Int) ≤ n := by
      rw [two_zpow_natCast]
      exact Rat.natCast_le_natCast.mpr (Nat.log2_self_le positive)
    obtain ⟨-, near⟩ := ofRatio_near false (show (n : Rat) * (1 : Nat) = n from Rat.mul_one _)
      (by decide) (by omega) (by omega) above
    -- half of the last bit that is kept, of a number that is at least `2 ^ log2 n`
    have unit : (2 : Rat) ^ (n.log2 + 1 - 54 : Int) = 2 ^ (n.log2 : Int) * 2 ^ (-53 : Int) := by
      rw [← two_zpow_add]
      congr 1
      omega
    have scaled := Rat.mul_le_mul_of_nonneg_right below (Rat.le_of_lt unit_pos)
    rw [unit] at near
    obtain ⟨high, low⟩ := near
    constructor
    · unfold ofNat
      grind
    · unfold ofNat
      grind

/-- A quotient at most one of numbers that are off by a part `u` is off by four times as much. -/
theorem quotient_near {a b x y p q u : Rat} (hu : 0 ≤ u) (small : 2 * u ≤ 1) (ha : 0 ≤ a)
    (le : a ≤ b) (hb : 0 < b) (near_x : Near (a * u) x a) (near_y : Near (b * u) y b)
    (hp : p * b = a) (hq : q * y = x) : Near (4 * u) q p := by
  obtain ⟨high_x, low_x⟩ := near_x
  obtain ⟨high_y, low_y⟩ := near_y
  have half : b ≤ 2 * y := by
    have scaled := Rat.mul_le_mul_of_nonneg_left small (Rat.le_of_lt hb)
    grind
  have p_nonneg : 0 ≤ p := by
    apply Rat.le_of_mul_le_mul_right _ hb
    grind
  have p_le : p ≤ 1 := by
    apply Rat.le_of_mul_le_mul_right _ hb
    grind
  have bu_nonneg := Rat.mul_nonneg (Rat.le_of_lt hb) hu
  have au_le := Rat.mul_le_mul_of_nonneg_right le hu
  have pbu_le := Rat.mul_le_mul_of_nonneg_right p_le bu_nonneg
  have from_below := Rat.mul_le_mul_of_nonneg_left low_y p_nonneg
  have from_above := Rat.mul_le_mul_of_nonneg_left high_y p_nonneg
  -- the error of the quotient, times what it is a quotient by, is at most that of both numbers
  have scale := Rat.mul_le_mul_of_nonneg_left half hu
  have y_pos : 0 < y := by grind
  constructor
  · apply Rat.le_of_mul_le_mul_right _ y_pos
    grind
  · apply Rat.le_of_mul_le_mul_right _ y_pos
    grind

/-- A quotient of whole numbers that is at most one is the exact one, up to the last four bits. -/
theorem div_ofNat_near {a b : Nat} (le : a ≤ b) (positive : b ≠ 0) (small : b < 2 ^ 64) :
    (ofNat a / ofNat b).isFinite = true ∧ (ofNat a / ofNat b).negative = false ∧
      Near (2 ^ (-50 : Int)) (ofNat a / ofNat b).absRat (a / b) := by
  have small_a : a < 2 ^ 64 := by omega
  refine ⟨isFinite_div_ofNat small_a small positive, negative_div_ofNat small_a small positive, ?_⟩
  obtain ⟨finite_a, -, -⟩ := absRat_ofNat_bounds small_a
  obtain ⟨finite_b, -, one_le⟩ := absRat_ofNat_bounds small
  have y_pos : 0 < (ofNat b).absRat := by
    have at_least := one_le positive
    grind
  have b_pos : (0 : Rat) < b := Rat.natCast_pos.mpr (Nat.pos_of_ne_zero positive)
  have quotient : (ofNat a).absRat / (ofNat b).absRat * (ofNat b).absRat = (ofNat a).absRat :=
    Rat.div_mul_cancel (Rat.ne_of_gt y_pos)
  have at_most_one : (ofNat a).absRat / (ofNat b).absRat ≤ 2 ^ (0 : Int) := by
    apply Rat.le_of_mul_le_mul_right _ y_pos
    rw [quotient, Rat.zpow_zero, Rat.one_mul]
    exact absRat_ofNat_mono le small
  obtain ⟨-, high, low⟩ := div_near finite_a finite_b (Rat.ne_of_gt y_pos) quotient (by omega)
    (by omega) at_most_one
  have unit_le : 2 * (2 : Rat) ^ (-53 : Int) ≤ 1 := by decide +kernel
  have total : 4 * (2 : Rat) ^ (-53 : Int) + 2 ^ (0 - 54 : Int) ≤ 2 ^ (-50 : Int) := by
    decide +kernel
  obtain ⟨high', low'⟩ := quotient_near (Rat.le_of_lt (two_zpow_pos (-53))) unit_le
    Rat.natCast_nonneg (Rat.natCast_le_natCast.mpr le) b_pos (ofNat_near small_a) (ofNat_near small)
    (Rat.div_mul_cancel (Rat.ne_of_gt b_pos)) quotient
  constructor
  · grind
  · grind

end Binary64

end Heapscope
