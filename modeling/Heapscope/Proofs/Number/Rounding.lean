import Heapscope.Proofs.Number.Binary64

/-!
# Rounding as arithmetic on rationals

`absRat` is the rational number that a binary64 number stands for, without its sign.  Rounding a
quotient moves it by at most half of the last bit that is kept, so the error of an operation is
bounded by the power of two that its exact result does not exceed.

Quotients are written as `v * den = num`, and bounds from both sides as `Near`.

* `ofRatio_near` -- the error of one rounding;
* `absRat_ofNat` -- whole numbers below `2 ^ 53` are kept as they are;
* `mul_near`, `div_near` -- a product and a quotient of finite numbers, each one rounding;
* `roundHalfAway_eq`, `roundHalfAway_le` -- the nearest whole number, from bounds on a number.
-/

namespace Heapscope

namespace Binary64

/-- Two numbers are at most `e` apart. -/
def Near (e x y : Rat) : Prop := x ≤ y + e ∧ y ≤ x + e

/-! ## Powers of two -/

theorem two_ne_zero : (2 : Rat) ≠ 0 := by decide

theorem two_zpow_pos (q : Int) : (0 : Rat) < 2 ^ q := Rat.zpow_pos (by decide)

theorem two_zpow_add (a b : Int) : (2 : Rat) ^ (a + b) = 2 ^ a * 2 ^ b :=
  Rat.zpow_add two_ne_zero a b

theorem two_zpow_natCast (n : Nat) : (2 : Rat) ^ (n : Int) = ((2 ^ n : Nat) : Rat) := by
  rw [Rat.zpow_natCast, Rat.natCast_pow]
  rfl

theorem two_zpow_neg_two : (2 : Rat) ^ (-2 : Int) = 1 / 4 := by
  have one : (2 : Rat) ^ (-2 : Int) * 4 = 1 := (two_zpow_add (-2) 2).symm
  grind

theorem zpow_le {b : Rat} (one_le : 1 ≤ b) {i j : Int} (le : i ≤ j) : b ^ i ≤ b ^ j := by
  have positive : 0 < b := by grind
  obtain ⟨n, rfl⟩ := Int.le.dest le
  have power : (1 : Rat) ≤ b ^ n := by
    induction n with
    | zero => exact (Rat.pow_zero b).symm ▸ Rat.le_refl
    | succ n ih =>
      have scaled := Rat.mul_le_mul_of_nonneg_left one_le (show 0 ≤ b ^ n by grind)
      rw [Rat.pow_succ]
      grind
  have scaled := Rat.mul_le_mul_of_nonneg_left power (Rat.le_of_lt (Rat.zpow_pos positive (n := i)))
  rw [Rat.zpow_add (Rat.ne_of_gt positive), Rat.zpow_natCast]
  grind

theorem two_zpow_le {a b : Int} (le : a ≤ b) : (2 : Rat) ^ a ≤ 2 ^ b := zpow_le (by decide) le

theorem le_of_two_zpow_le {a b : Int} (le : (2 : Rat) ^ a ≤ 2 ^ b) : a ≤ b := by
  by_contra gt
  have step : (2 : Rat) ^ (b + 1) ≤ 2 ^ a := two_zpow_le (by omega)
  have pos := two_zpow_pos b
  rw [Rat.zpow_add_one two_ne_zero] at step
  grind

theorem natCast_mul_two_zpow_le {m k : Nat} {q N : Int} (le : m ≤ 2 ^ k) (exponents : k + q ≤ N) :
    (m : Rat) * 2 ^ q ≤ 2 ^ N := by
  have cast : (m : Rat) ≤ 2 ^ (k : Int) := by
    rw [two_zpow_natCast]
    exact Rat.natCast_le_natCast.mpr le
  have scaled := Rat.mul_le_mul_of_nonneg_right cast (Rat.le_of_lt (two_zpow_pos q))
  rw [← two_zpow_add] at scaled
  exact Rat.le_trans scaled (two_zpow_le exponents)

/-- An exponent without its sign, on one side or on the other. -/
theorem pow_toNat {b : Rat} (hb : b ≠ 0) (q : Int) : b ^ (-q).toNat * b ^ q = b ^ q.toNat := by
  show b ^ ((-q).toNat : Int) * b ^ q = b ^ (q.toNat : Int)
  rw [← Rat.zpow_add hb]
  congr 1
  omega

theorem two_pow_toNat (q : Int) : (2 : Rat) ^ (-q).toNat * 2 ^ q = 2 ^ q.toNat :=
  pow_toNat two_ne_zero q

/-! ## Quotients -/

/-- A quotient `v` scaled by an exponent. -/
theorem scaled_eq {num den : Nat} {v : Rat} (hv : v * den = num) (q : Int) :
    ((scaled num den q).1 : Rat) * 2 ^ q = v * (scaled num den q).2 := by
  have power := two_pow_toNat q
  unfold scaled
  simp only [Rat.natCast_mul, Rat.natCast_pow]
  rw [← hv]
  grind

theorem scaled_snd_pos (num : Nat) {den : Nat} (hd : den ≠ 0) (q : Int) :
    0 < (scaled num den q).2 := by
  unfold scaled
  exact Nat.mul_pos (Nat.pos_of_ne_zero hd) (Nat.pow_pos (by decide))

variable {num den : Nat} {v : Rat}

/-- The logarithms of the two sides leave two binades to choose from. -/
theorem log2_bounds (hv : v * den = num) (hn : num ≠ 0) (hd : den ≠ 0) :
    (2 : Rat) ^ ((num.log2 : Int) - den.log2 - 1) < v ∧
      v < 2 ^ ((num.log2 : Int) - den.log2 + 1) := by
  have den_pos : (0 : Rat) < den := Rat.natCast_pos.mpr (Nat.pos_of_ne_zero hd)
  have num_le : (2 : Rat) ^ (num.log2 : Int) ≤ num := by
    rw [two_zpow_natCast]
    exact Rat.natCast_le_natCast.mpr (Nat.log2_self_le hn)
  have lt_num : (num : Rat) < 2 ^ ((num.log2 + 1 : Nat) : Int) := by
    rw [two_zpow_natCast]
    exact Rat.natCast_lt_natCast.mpr Nat.lt_log2_self
  have den_le : (2 : Rat) ^ (den.log2 : Int) ≤ den := by
    rw [two_zpow_natCast]
    exact Rat.natCast_le_natCast.mpr (Nat.log2_self_le hd)
  have lt_den : (den : Rat) < 2 ^ ((den.log2 + 1 : Nat) : Int) := by
    rw [two_zpow_natCast]
    exact Rat.natCast_lt_natCast.mpr Nat.lt_log2_self
  constructor
  · apply Rat.lt_of_mul_lt_mul_right _ (Rat.le_of_lt den_pos)
    have power : (2 : Rat) ^ ((num.log2 : Int) - den.log2 - 1) * 2 ^ ((den.log2 + 1 : Nat) : Int)
        = 2 ^ (num.log2 : Int) := by
      rw [← two_zpow_add]
      congr 1
      omega
    have scaled := Rat.mul_lt_mul_of_pos_left lt_den
      (two_zpow_pos ((num.log2 : Int) - den.log2 - 1))
    rw [hv]
    grind
  · apply Rat.lt_of_mul_lt_mul_right _ (Rat.le_of_lt den_pos)
    have power : (2 : Rat) ^ ((num.log2 : Int) - den.log2 + 1) * 2 ^ (den.log2 : Int)
        = 2 ^ ((num.log2 + 1 : Nat) : Int) := by
      rw [← two_zpow_add]
      congr 1
      omega
    have scaled := Rat.mul_le_mul_of_nonneg_left den_le
      (Rat.le_of_lt (two_zpow_pos ((num.log2 : Int) - den.log2 + 1)))
    rw [hv]
    grind

/-- The binade of a positive quotient holds it. -/
theorem binade_bounds (hv : v * den = num) (hn : num ≠ 0) (hd : den ≠ 0) :
    (2 : Rat) ^ binade num den ≤ v ∧ v < 2 ^ (binade num den + 1) := by
  obtain ⟨below, above⟩ := log2_bounds hv hn hd
  have sides := scaled_eq hv ((num.log2 : Int) - den.log2)
  have pos := scaled_snd_pos num hd ((num.log2 : Int) - den.log2)
  have binade_eq : binade num den
      = if (scaled num den ((num.log2 : Int) - den.log2)).2
          ≤ (scaled num den ((num.log2 : Int) - den.log2)).1
        then (num.log2 : Int) - den.log2 else (num.log2 : Int) - den.log2 - 1 := rfl
  rw [binade_eq]
  clear binade_eq
  generalize (num.log2 : Int) - den.log2 = guess at below above sides pos
  generalize scaled num den guess = pair at sides pos
  obtain ⟨n, d⟩ := pair
  simp only at sides pos ⊢
  have d_pos : (0 : Rat) < d := Rat.natCast_pos.mpr pos
  -- the quotient is at least the guess when the scaled one is at least one
  split
  · rename_i le
    refine ⟨Rat.le_of_mul_le_mul_right ?_ d_pos, above⟩
    rw [← sides, Rat.mul_comm]
    exact Rat.mul_le_mul_of_nonneg_right (Rat.natCast_le_natCast.mpr le)
      (Rat.le_of_lt (two_zpow_pos guess))
  · rename_i gt
    refine ⟨Rat.le_of_lt below, ?_⟩
    rw [Int.sub_add_cancel]
    apply Rat.lt_of_mul_lt_mul_right _ (Rat.le_of_lt d_pos)
    rw [← sides, Rat.mul_comm _ (d : Rat)]
    exact Rat.mul_lt_mul_of_pos_right (Rat.natCast_lt_natCast.mpr (Nat.lt_of_not_le gt))
      (two_zpow_pos guess)

/-- A quotient up to a power of two has a binade up to its exponent. -/
theorem binade_le (hv : v * den = num) (hn : num ≠ 0) (hd : den ≠ 0) {N : Int}
    (le : v ≤ 2 ^ N) : binade num den ≤ N :=
  le_of_two_zpow_le (Rat.le_trans (binade_bounds hv hn hd).1 le)

/-! ## The nearest whole number -/

/-- The rest decides between the two neighbours, and the one taken is not the farther one. -/
theorem nearestEven_bounds (num : Nat) {den : Nat} (hd : 0 < den) :
    2 * (nearestEven num den * den) ≤ 2 * num + den ∧
      2 * num ≤ 2 * (nearestEven num den * den) + den := by
  have whole := Nat.div_add_mod' num den
  have lt := Nat.mod_lt num hd
  have next : (num / den + 1) * den = num / den * den + den := Nat.succ_mul _ _
  unfold nearestEven
  simp only
  split
  · rename_i less
    rw [Nat.compare_eq_lt] at less
    omega
  · rename_i more
    rw [Nat.compare_eq_gt] at more
    rw [next]
    omega
  · rename_i tie
    rw [Nat.compare_eq_eq] at tie
    split
    · omega
    · rw [next]
      omega

theorem le_nearestEven (num den : Nat) : num / den ≤ nearestEven num den := by
  unfold nearestEven
  simp only
  split
  · exact Nat.le_refl _
  · omega
  · split <;> omega

theorem nearestEven_of_dvd {num den k : Nat} (hd : 0 < den) (eq : num = k * den) :
    nearestEven num den = k := by
  have quotient : num / den = k := by rw [eq, Nat.mul_div_cancel _ hd]
  have rest : num % den = 0 := by rw [eq, Nat.mul_mod_left]
  have lt : compare (2 * (num % den)) den = .lt := by
    rw [Nat.compare_eq_lt]
    omega
  unfold nearestEven
  simp only [lt, quotient]

/-- A quotient in units of `u`, and the nearest whole number of units. -/
theorem nearestEven_near {u : Rat} (hu : 0 < u) (hd : 0 < den) (hv : num * u = v * den) :
    Near (u / 2) (nearestEven num den * u) v := by
  have den_pos : (0 : Rat) < den := Rat.natCast_pos.mpr hd
  obtain ⟨high, low⟩ := nearestEven_bounds num hd
  have high' : 2 * ((nearestEven num den : Rat) * den) ≤ 2 * num + den := by
    exact_mod_cast Rat.natCast_le_natCast.mpr high
  have low' : 2 * (num : Rat) ≤ 2 * (nearestEven num den * den) + den := by
    exact_mod_cast Rat.natCast_le_natCast.mpr low
  have high_u := Rat.mul_le_mul_of_nonneg_right high' (Rat.le_of_lt hu)
  have low_u := Rat.mul_le_mul_of_nonneg_right low' (Rat.le_of_lt hu)
  constructor
  · apply Rat.le_of_mul_le_mul_right _ den_pos
    grind
  · apply Rat.le_of_mul_le_mul_right _ den_pos
    grind

/-! ## What numbers stand for -/

/-- The rational number that a finite number stands for, without its sign. -/
def absRat (x : Binary64) : Rat :=
  match x.value with
  | .finite _ m q => m * 2 ^ q
  | .nan | .infinite _ => 0

theorem isFinite_iff {x : Binary64} :
    x.isFinite = true ↔ ∃ negative m q, x.value = .finite negative m q := by
  have below : x.magnitude < 2 ^ 63 := Nat.mod_lt _ (by decide)
  unfold isFinite infinityMagnitude value
  rw [decide_eq_true_eq]
  simp only
  split
  · split
    · simp
      omega
    · simp
      omega
  · split
    · simp
      omega
    · simp
      omega

theorem absRat_of_value {x : Binary64} {negative : Bool} {m : Nat} {q : Int}
    (value : x.value = .finite negative m q) : x.absRat = m * 2 ^ q := by
  unfold absRat
  rw [value]

theorem absRat_nonneg (x : Binary64) : 0 ≤ x.absRat := by
  unfold absRat
  split
  · rename_i m q _
    exact Rat.mul_nonneg Rat.natCast_nonneg (Rat.le_of_lt (two_zpow_pos q))
  · exact Rat.le_refl
  · exact Rat.le_refl

/-- The significand and the exponent that a number keeps: the significand `2 ^ 53` is carried. -/
def carried (m : Nat) (q : Int) : Nat × Int := if m = 2 ^ 53 then (2 ^ 52, q + 1) else (m, q)

theorem carried_eq (m : Nat) (q : Int) :
    ((carried m q).1 : Rat) * 2 ^ (carried m q).2 = m * 2 ^ q := by
  unfold carried
  split
  · rename_i top
    rw [top, Rat.zpow_add_one two_ne_zero]
    simp only [Rat.natCast_pow]
    grind
  · rfl

/-- A significand of at most 53 bits over its exponent field.  The significand `2 ^ 53` carries into
the field; below `2 ^ 52` there is the least exponent only. -/
theorem value_ofMagnitude (negative : Bool) {m : Nat} {q : Int} (low : -1074 ≤ q) (high : q ≤ 970)
    (le : m ≤ 2 ^ 53) (normal : 2 ^ 52 ≤ m ∨ q = -1074) :
    (ofMagnitude negative (m + (q + 1074).toNat * 2 ^ 52)).value
      = .finite negative (carried m q).1 (carried m q).2 := by
  obtain ⟨e, he⟩ := Int.eq_ofNat_of_zero_le (show 0 ≤ q + 1074 by omega)
  obtain rfl : q = (e : Int) - 1074 := by omega
  have field : ((e : Int) - 1074 + 1074).toNat = e := by omega
  rw [field]
  have small : m + e * 2 ^ 52 < 2 ^ 63 := by omega
  unfold value carried
  simp only [magnitude_ofMagnitude negative small, negative_ofMagnitude negative small]
  -- a subnormal number, the one that carries, and a normal one
  by_cases subnormal : m < 2 ^ 52
  · obtain rfl : e = 0 := by omega
    have exponent : (m + 0 * 2 ^ 52) / 2 ^ 52 = 0 := by omega
    have fraction : (m + 0 * 2 ^ 52) % 2 ^ 52 = m := by omega
    simp only [exponent, fraction, if_neg (show ¬m = 2 ^ 53 by omega)]
    rfl
  · by_cases carries : m = 2 ^ 53
    · subst carries
      have exponent : (2 ^ 53 + e * 2 ^ 52) / 2 ^ 52 = e + 2 := by omega
      have fraction : (2 ^ 53 + e * 2 ^ 52) % 2 ^ 52 = 0 := by omega
      have power : ((e + 2 : Nat) : Int) - 1075 = e - 1074 + 1 := by omega
      simp only [exponent, fraction]
      rw [if_neg (show ¬e + 2 = 2047 by omega), if_neg (Nat.succ_ne_zero (e + 1)), power]
      rfl
    · have exponent : (m + e * 2 ^ 52) / 2 ^ 52 = e + 1 := by omega
      have fraction : (m + e * 2 ^ 52) % 2 ^ 52 = m - 2 ^ 52 := by omega
      have power : ((e + 1 : Nat) : Int) - 1075 = e - 1074 := by omega
      simp only [exponent, fraction]
      rw [if_neg (show ¬e + 1 = 2047 by omega), if_neg (Nat.succ_ne_zero e), power, if_neg carries,
        Nat.add_sub_cancel' (by omega)]

theorem absRat_ofMagnitude (negative : Bool) {m : Nat} {q : Int} (low : -1074 ≤ q) (high : q ≤ 970)
    (le : m ≤ 2 ^ 53) (normal : 2 ^ 52 ≤ m ∨ q = -1074) :
    (ofMagnitude negative (m + (q + 1074).toNat * 2 ^ 52)).isFinite = true ∧
      (ofMagnitude negative (m + (q + 1074).toNat * 2 ^ 52)).absRat = m * 2 ^ q := by
  have value := value_ofMagnitude negative low high le normal
  exact ⟨isFinite_iff.mpr ⟨_, _, _, value⟩, (absRat_of_value value).trans (carried_eq m q)⟩

/-! ## One rounding -/

/-- The significand that is kept of a quotient: the nearest whole number of units. -/
def significand (num den : Nat) : Nat :=
  nearestEven (scaled num den (unitExponent num den)).1 (scaled num den (unitExponent num den)).2

/-- The significand that is kept has at most 53 bits, and fewer only at the least exponent. -/
theorem significand_bounds (hv : v * den = num) (hn : num ≠ 0) (hd : den ≠ 0) :
    significand num den ≤ 2 ^ 53 ∧
      (2 ^ 52 ≤ significand num den ∨ unitExponent num den = -1074) := by
  unfold significand
  obtain ⟨ge, lt⟩ := binade_bounds hv hn hd
  have sides := scaled_eq hv (unitExponent num den)
  have pos := scaled_snd_pos num hd (unitExponent num den)
  have unit : unitExponent num den = max (binade num den - 52) (-1074) := rfl
  generalize scaled num den (unitExponent num den) = pair at sides pos
  obtain ⟨n, d⟩ := pair
  simp only at sides pos ⊢
  have d_pos : (0 : Rat) < d := Rat.natCast_pos.mpr pos
  have unit_pos := two_zpow_pos (unitExponent num den)
  have split_power : ∀ k : Nat, (2 : Rat) ^ (unitExponent num den + k)
      = 2 ^ unitExponent num den * ((2 ^ k : Nat) : Rat) := by
    intro k
    rw [two_zpow_add, two_zpow_natCast]
  constructor
  · have below : v < 2 ^ unitExponent num den * ((2 ^ 53 : Nat) : Rat) := by
      rw [← split_power]
      have le := two_zpow_le (show binade num den + 1 ≤ unitExponent num den + (53 : Nat) by omega)
      grind
    have scaled_lt : (n : Rat) < ((2 ^ 53 * d : Nat) : Rat) := by
      apply Rat.lt_of_mul_lt_mul_right _ (Rat.le_of_lt unit_pos)
      have times := Rat.mul_lt_mul_of_pos_right below d_pos
      rw [sides, Rat.natCast_mul]
      grind
    have floor : n / d < 2 ^ 53 := by
      rw [Nat.div_lt_iff_lt_mul pos]
      exact Rat.natCast_lt_natCast.mp scaled_lt
    have rounded := nearestEven_le n d
    omega
  · by_cases least : binade num den - 52 ≤ -1074
    · exact .inr (by omega)
    · refine .inl ?_
      have above : 2 ^ unitExponent num den * ((2 ^ 52 : Nat) : Rat) ≤ v := by
        rw [← split_power]
        exact Rat.le_trans (two_zpow_le (by omega)) ge
      have le_scaled : ((2 ^ 52 * d : Nat) : Rat) ≤ n := by
        apply Rat.le_of_mul_le_mul_right _ unit_pos
        have times := Rat.mul_le_mul_of_nonneg_right above (Rat.le_of_lt d_pos)
        rw [sides, Rat.natCast_mul]
        grind
      have floor : 2 ^ 52 ≤ n / d := by
        rw [Nat.le_div_iff_mul_le pos]
        exact Rat.natCast_le_natCast.mp le_scaled
      exact Nat.le_trans floor (le_nearestEven n d)

theorem roundedMagnitude_eq (hn : num ≠ 0) : roundedMagnitude num den
    = min (significand num den + (unitExponent num den + 1074).toNat * 2 ^ 52)
        infinityMagnitude := by
  unfold roundedMagnitude
  rw [if_neg hn]
  rfl

theorem le_unitExponent (num den : Nat) : -1074 ≤ unitExponent num den := by
  unfold unitExponent
  omega

/-- A positive quotient below `2 ^ 1023` is kept with its significand at its own exponent. -/
theorem value_ofRatio (negative : Bool) (hv : v * den = num) (hn : num ≠ 0) (hd : den ≠ 0)
    (high : unitExponent num den ≤ 970) :
    (ofRatio negative num den).value
      = .finite negative (carried (significand num den) (unitExponent num den)).1
          (carried (significand num den) (unitExponent num den)).2 := by
  obtain ⟨le, normal⟩ := significand_bounds hv hn hd
  have low := le_unitExponent num den
  have magnitude : roundedMagnitude num den
      = significand num den + (unitExponent num den + 1074).toNat * 2 ^ 52 := by
    rw [roundedMagnitude_eq hn]
    unfold infinityMagnitude
    omega
  unfold ofRatio
  rw [magnitude]
  exact value_ofMagnitude negative low high le normal

theorem absRat_ofRatio (negative : Bool) (hv : v * den = num) (hn : num ≠ 0) (hd : den ≠ 0)
    (high : unitExponent num den ≤ 970) :
    (ofRatio negative num den).isFinite = true ∧
      (ofRatio negative num den).absRat = significand num den * 2 ^ unitExponent num den := by
  have value := value_ofRatio negative hv hn hd high
  exact ⟨isFinite_iff.mpr ⟨_, _, _, value⟩, (absRat_of_value value).trans (carried_eq _ _)⟩

/-- Rounding a quotient up to `2 ^ N` is off by at most half of the last bit below `2 ^ N`. -/
theorem ofRatio_near (negative : Bool) (hv : v * den = num) (hd : den ≠ 0) {N : Int}
    (low : -1020 ≤ N) (high : N ≤ 1022) (le : v ≤ 2 ^ N) :
    (ofRatio negative num den).isFinite = true ∧
      Near (2 ^ (N - 54)) (ofRatio negative num den).absRat v := by
  have error_pos := two_zpow_pos (N - 54)
  by_cases hn : num = 0
  · subst hn
    have den_ne : (den : Rat) ≠ 0 := mt Rat.natCast_eq_zero_iff.mp hd
    have v_zero : v = 0 := by
      rcases Rat.mul_eq_zero.mp hv with zero | zero
      · exact zero
      · exact absurd zero den_ne
    have zero : ofRatio negative 0 den
        = ofMagnitude negative (0 + (-1074 + 1074 : Int).toNat * 2 ^ 52) := by
      simp [ofRatio, roundedMagnitude]
    obtain ⟨finite, absRat⟩ := absRat_ofMagnitude negative (m := 0) (q := -1074) (by omega)
      (by omega) (by omega) (.inr rfl)
    rw [zero, absRat, v_zero]
    refine ⟨finite, ?_, ?_⟩
    · grind
    · grind
  · have le_N := binade_le hv hn hd le
    have unit : unitExponent num den = max (binade num den - 52) (-1074) := rfl
    obtain ⟨finite, absRat⟩ := absRat_ofRatio negative hv hn hd (by omega)
    refine ⟨finite, ?_⟩
    have sides := scaled_eq hv (unitExponent num den)
    have pos := scaled_snd_pos num hd (unitExponent num den)
    rw [absRat]
    unfold significand
    generalize scaled num den (unitExponent num den) = pair at sides pos
    obtain ⟨n, d⟩ := pair
    simp only at sides pos ⊢
    have unit_pos := two_zpow_pos (unitExponent num den)
    by_cases top : binade num den = N
    · -- only `2 ^ N` itself is left, and it has no bits to lose
      have exact_power : v = 2 ^ N := Rat.le_antisymm le (top ▸ (binade_bounds hv hn hd).1)
      have power : (2 : Rat) ^ N = 2 ^ unitExponent num den * ((2 ^ 52 : Nat) : Rat) := by
        rw [← two_zpow_natCast, ← two_zpow_add]
        congr 1
        omega
      have multiple : n = 2 ^ 52 * d := by
        apply Rat.natCast_inj.mp
        rw [Rat.natCast_mul]
        grind
      rw [nearestEven_of_dvd pos multiple, exact_power, power]
      constructor
      · grind
      · grind
    · obtain ⟨above, below⟩ := nearestEven_near unit_pos pos sides
      have half : (2 : Rat) ^ unitExponent num den ≤ 2 ^ (N - 54) * 2 := by
        rw [← Rat.zpow_add_one two_ne_zero]
        exact two_zpow_le (by omega)
      constructor
      · grind
      · grind

/-! ## Whole numbers and operations -/

/-- Whole numbers below `2 ^ 53` have no bits to lose. -/
theorem absRat_ofNat {n : Nat} (small : n < 2 ^ 53) :
    (ofNat n).isFinite = true ∧ (ofNat n).absRat = n := by
  by_cases hn : n = 0
  · subst hn
    refine ⟨by decide, ?_⟩
    rw [absRat_of_value (show (ofNat 0).value = .finite false 0 (-1074) by decide)]
    exact Rat.zero_mul _
  · have log : n.log2 < 53 := (Nat.log2_lt hn).mpr small
    have unit : unitExponent n 1 = (n.log2 : Int) - 52 := by
      unfold unitExponent
      rw [binade_ofNat n hn]
      omega
    have hv : (n : Rat) * (1 : Nat) = n := by simp
    obtain ⟨finite, absRat⟩ := absRat_ofRatio false hv hn (by decide) (by omega)
    refine ⟨finite, ?_⟩
    have sides := scaled_eq hv (unitExponent n 1)
    have whole : (scaled n 1 (unitExponent n 1)).2 = 1 := by
      have none : ((n.log2 : Int) - 52).toNat = 0 := by omega
      simp [scaled, unit, none]
    have rounded : nearestEven (scaled n 1 (unitExponent n 1)).1 1
        = (scaled n 1 (unitExponent n 1)).1 := nearestEven_of_dvd (by decide) (Nat.mul_one _).symm
    unfold ofNat
    rw [absRat, significand, whole, rounded, sides, whole]
    simp

variable {x y : Binary64} {N : Int}

theorem negative_of_value {negative : Bool} {m : Nat} {q : Int}
    (value : x.value = .finite negative m q) : negative = x.negative := by
  unfold Binary64.value at value
  simp only at value
  split at value
  · split at value <;> cases value
  · split at value
    · cases value
      rfl
    · cases value
      rfl

/-- A significand has 53 bits, and fewer at the least exponent only. -/
theorem normal_of_value {negative : Bool} {m : Nat} {q : Int}
    (value : x.value = .finite negative m q) : 2 ^ 52 ≤ m ∨ q = -1074 := by
  unfold Binary64.value at value
  simp only at value
  split at value
  · split at value <;> cases value
  · split at value
    · cases value
      exact .inr rfl
    · cases value
      exact .inl (Nat.le_add_right _ _)

/-- A product of finite numbers is the exact product, rounded. -/
theorem mul_eq_ofRatio (hx : x.isFinite = true) (hy : y.isFinite = true) : ∃ num den : Nat,
    den ≠ 0 ∧ x.absRat * y.absRat * den = num ∧
      x * y = ofRatio (x.negative ^^ y.negative) num den := by
  obtain ⟨s, m, p, value_x⟩ := isFinite_iff.mp hx
  obtain ⟨t, n, q, value_y⟩ := isFinite_iff.mp hy
  refine ⟨m * n * 2 ^ (p + q).toNat, 2 ^ (-(p + q)).toNat, ?_, ?_, ?_⟩
  · exact Nat.pos_iff_ne_zero.mp (Nat.pow_pos (by decide))
  · have power := two_pow_toNat (p + q)
    rw [two_zpow_add] at power
    rw [absRat_of_value value_x, absRat_of_value value_y]
    simp only [Rat.natCast_mul, Rat.natCast_pow]
    grind
  · rw [← negative_of_value value_x, ← negative_of_value value_y]
    show mul x y = _
    unfold mul
    rw [value_x, value_y]
    rfl

/-- A product of finite numbers is the exact product, rounded once. -/
theorem mul_near (hx : x.isFinite = true) (hy : y.isFinite = true) (low : -1020 ≤ N)
    (high : N ≤ 1022) (le : x.absRat * y.absRat ≤ 2 ^ N) :
    (x * y).isFinite = true ∧ Near (2 ^ (N - 54)) (x * y).absRat (x.absRat * y.absRat) := by
  obtain ⟨num, den, nonzero, product, eq⟩ := mul_eq_ofRatio hx hy
  rw [eq]
  exact ofRatio_near _ product nonzero low high le

/-- A quotient of finite numbers is the exact quotient, rounded. -/
theorem div_eq_ofRatio (hx : x.isFinite = true) (hy : y.isFinite = true) (nonzero : y.absRat ≠ 0)
    {v : Rat} (hv : v * y.absRat = x.absRat) : ∃ num den : Nat,
    den ≠ 0 ∧ v * den = num ∧ x / y = ofRatio (x.negative ^^ y.negative) num den := by
  obtain ⟨s, m, p, value_x⟩ := isFinite_iff.mp hx
  obtain ⟨t, n, q, value_y⟩ := isFinite_iff.mp hy
  have hn : n ≠ 0 := by
    rintro rfl
    rw [absRat_of_value value_y] at nonzero
    simp at nonzero
  refine ⟨m * 2 ^ (p - q).toNat, n * 2 ^ (q - p).toNat, ?_, ?_, ?_⟩
  · exact Nat.mul_ne_zero hn (Nat.pos_iff_ne_zero.mp (Nat.pow_pos (by decide)))
  · have power := two_pow_toNat (p - q)
    rw [Int.neg_sub] at power
    have shift : (2 : Rat) ^ p = 2 ^ (p - q) * 2 ^ q := by
      rw [← two_zpow_add]
      congr 1
      omega
    have pos := two_zpow_pos q
    rw [absRat_of_value value_x, absRat_of_value value_y, shift] at hv
    have cancelled : v * n = m * 2 ^ (p - q) := by
      have ne : (2 : Rat) ^ q ≠ 0 := Rat.ne_of_gt pos
      grind
    simp only [Rat.natCast_mul, Rat.natCast_pow]
    grind
  · rw [← negative_of_value value_x, ← negative_of_value value_y]
    show div x y = _
    unfold div
    rw [value_x, value_y]
    simp only
    rw [if_neg hn]

/-- A quotient of finite numbers is the exact quotient, rounded once. -/
theorem div_near (hx : x.isFinite = true) (hy : y.isFinite = true) (nonzero : y.absRat ≠ 0)
    {v : Rat} (hv : v * y.absRat = x.absRat) (low : -1020 ≤ N) (high : N ≤ 1022) (le : v ≤ 2 ^ N) :
    (x / y).isFinite = true ∧ Near (2 ^ (N - 54)) (x / y).absRat v := by
  obtain ⟨num, den, positive, quotient, eq⟩ := div_eq_ofRatio hx hy nonzero hv
  rw [eq]
  exact ofRatio_near _ quotient positive low high le

/-! ## The nearest whole number of a number -/

/-- The whole number that a finite number rounds to. -/
theorem roundHalfAway_spec (hx : x.isFinite = true) : ∃ num den : Nat, 0 < den ∧
    x.absRat * den = num ∧ x.roundHalfAway = some (nearestUp num den) := by
  obtain ⟨s, m, q, value_x⟩ := isFinite_iff.mp hx
  refine ⟨m * 2 ^ q.toNat, 2 ^ (-q).toNat, Nat.pow_pos (by decide), ?_, ?_⟩
  · have power := two_pow_toNat q
    rw [absRat_of_value value_x]
    simp only [Rat.natCast_mul, Rat.natCast_pow]
    grind
  · unfold roundHalfAway
    rw [value_x]

theorem nearestUp_le {k : Nat} (hd : 0 < den) (hv : v * den = num) (lt : 2 * v < 2 * k + 1) :
    nearestUp num den ≤ k := by
  have den_pos : (0 : Rat) < den := Rat.natCast_pos.mpr hd
  have times := Rat.mul_lt_mul_of_pos_right lt den_pos
  have bound : ((2 * num + den : Nat) : Rat) < (((k + 1) * (2 * den) : Nat) : Rat) := by
    simp only [Rat.natCast_mul, Rat.natCast_add, Rat.natCast_ofNat]
    grind
  unfold nearestUp
  exact Nat.lt_succ_iff.mp
    ((Nat.div_lt_iff_lt_mul (by omega)).mpr (Rat.natCast_lt_natCast.mp bound))

theorem le_nearestUp {k : Nat} (hd : 0 < den) (hv : v * den = num)
    (le : 2 * (k : Rat) ≤ 2 * v + 1) : k ≤ nearestUp num den := by
  have den_pos : (0 : Rat) < den := Rat.natCast_pos.mpr hd
  have times := Rat.mul_le_mul_of_nonneg_right le (Rat.le_of_lt den_pos)
  have bound : ((k * (2 * den) : Nat) : Rat) ≤ ((2 * num + den : Nat) : Rat) := by
    simp only [Rat.natCast_mul, Rat.natCast_add, Rat.natCast_ofNat]
    grind
  unfold nearestUp
  exact (Nat.le_div_iff_mul_le (by omega)).mpr (Rat.natCast_le_natCast.mp bound)

theorem lt_nearestUp (hd : 0 < den) (hv : v * den = num) : 2 * v < 2 * nearestUp num den + 1 := by
  have den_pos : (0 : Rat) < den := Rat.natCast_pos.mpr hd
  have next : 2 * num + den < (nearestUp num den + 1) * (2 * den) := by
    unfold nearestUp
    exact Nat.lt_mul_of_div_lt (Nat.lt_succ_self _) (by omega)
  have bound := Rat.natCast_lt_natCast.mpr next
  simp only [Rat.natCast_mul, Rat.natCast_add, Rat.natCast_ofNat] at bound
  apply Rat.lt_of_mul_lt_mul_right _ (Rat.le_of_lt den_pos)
  grind

/-- A greater number has no smaller nearest whole number. -/
theorem roundHalfAway_mono (hx : x.isFinite = true) (hy : y.isFinite = true)
    (le : x.absRat ≤ y.absRat) :
    ∃ m n, x.roundHalfAway = some m ∧ y.roundHalfAway = some n ∧ m ≤ n := by
  obtain ⟨num, den, hd, hv, rounded⟩ := roundHalfAway_spec hx
  obtain ⟨num', den', hd', hv', rounded'⟩ := roundHalfAway_spec hy
  have below := lt_nearestUp hd' hv'
  exact ⟨_, _, rounded, rounded', nearestUp_le hd hv (by grind)⟩

theorem roundHalfAway_le (hx : x.isFinite = true) {k : Nat} (lt : 2 * x.absRat < 2 * k + 1) :
    ∃ n, x.roundHalfAway = some n ∧ n ≤ k := by
  obtain ⟨num, den, pos, hv, rounded⟩ := roundHalfAway_spec hx
  exact ⟨_, rounded, nearestUp_le pos hv lt⟩

/-- A number that is less than one half away from a whole number rounds to it. -/
theorem roundHalfAway_eq (hx : x.isFinite = true) {k : Nat} (low : 2 * (k : Rat) ≤ 2 * x.absRat + 1)
    (high : 2 * x.absRat < 2 * k + 1) : x.roundHalfAway = some k := by
  obtain ⟨num, den, pos, hv, rounded⟩ := roundHalfAway_spec hx
  rw [rounded, Nat.le_antisymm (nearestUp_le pos hv high) (le_nearestUp pos hv low)]

end Binary64

end Heapscope
