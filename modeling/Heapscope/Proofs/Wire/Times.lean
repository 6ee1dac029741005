import Heapscope.Proofs.Micros
import Heapscope.Proofs.Number.Shortest
import Heapscope.Proofs.Wire.Scalars

/-!
# Times on the wire

A time leaves as a number of milliseconds, which is rounded, and is read back by a product, which is
rounded again.  Up to `exactLimit`, about 139 years, neither rounding moves a time: the number of
milliseconds is written with the three places of the time, and is read as the time.  Right behind it
times begin to move, though never past each other.

* `Micros.ofMillis?_millis` -- a time up to the limit is what its milliseconds stand for;
* `Micros.ofMillis?_mono` -- every time is read as some time, in the order of the times;
* `Micros.survives` -- a time up to the limit is read from its text.
-/

namespace Heapscope

open Binary64

namespace Numeral

/-- A numeral with a point and digits enough for 53 bits is one quotient, rounded. -/
theorem binary64?_point {whole places fraction : Nat} (some_place : 0 < places)
    (few : places ≤ 15) (places_small : fraction < 10 ^ places)
    (small : whole * 10 ^ places + fraction < 2 ^ 53) :
    binary64? ⟨false, whole, Digit.padded places fraction, none⟩
      = some (Binary64.ofNat (whole * 10 ^ places + fraction) / ten places) := by
  have limit : wordLimit = 2 ^ 64 - 1 := rfl
  have whole_le : whole ≤ whole * 10 ^ places :=
    Nat.le_mul_of_pos_right whole (Nat.pow_pos (by decide))
  have value : Digit.valueFrom whole (Digit.padded places fraction)
      = whole * 10 ^ places + fraction := by
    rw [Digit.valueFrom_padded, Nat.mod_eq_of_lt places_small]
  have taken : takeDigits whole (Digit.padded places fraction)
      = (whole * 10 ^ places + fraction, []) := by
    rw [takeDigits_eq (by rw [value]; omega), value]
  have scaled : scaleTen (.ofNat (whole * 10 ^ places + fraction)) (-(places : Int))
      = some (Binary64.ofNat (whole * 10 ^ places + fraction) / ten places) := by
    unfold scaleTen
    rw [if_neg (by omega), if_neg (by omega), if_pos (by omega), Int.neg_neg]
    rfl
  unfold binary64?
  simp only [takeDigits_decimalDigits (show whole ≤ wordLimit by omega), taken,
    Digit.length_padded]
  have exponent : ((([] : List Digit).length : Int) + ([] : List Digit).length - places)
      = -(places : Int) := by simp
  rw [exponent, scaled]
  rfl

/-- Thousandths that are written with a point are one quotient, rounded, however many zeros are
stripped from them. -/
theorem binary64?_of_spells {a : Nat} {d : Decimal} (spells : d.Spells a (-3))
    (small : a < 2 ^ 53) : (Spelling.withPoint (positional false d.digits d.exponent)).binary64?
      = some (Binary64.ofNat a / Binary64.ofNat 1000) := by
  obtain ⟨j, exponent, digits⟩ := spells
  have quotient : ∀ {n places : Nat}, places ≤ 3 → n < 2 ^ 53 → n * 1000 = a * 10 ^ places →
      Binary64.ofNat n / ten places = Binary64.ofNat a / Binary64.ofNat 1000 := by
    intro n places few n_small same
    have power : 10 ^ places ≤ 10 ^ 3 := Nat.pow_le_pow_right (by decide) few
    unfold ten
    rw [div_ofNat n_small (by omega) (Nat.pow_pos (by decide)).ne' (by decide) same,
      div_ofNat small (by decide) (by decide) (by decide) rfl]
  by_cases whole : 0 ≤ d.exponent
  · -- a whole number of milliseconds ends in `.0`
    have written : Spelling.withPoint (positional false d.digits d.exponent)
        = ⟨false, d.digits * 10 ^ d.exponent.toNat, Digit.padded 1 0, none⟩ := by
      unfold positional
      rw [if_pos whole]
      rfl
    have thousand : d.digits * 10 ^ d.exponent.toNat * 1000 = a := by
      rw [← digits, show j = d.exponent.toNat + 3 by omega, Nat.pow_add, ← Nat.mul_assoc]
    rw [written]
    generalize d.digits * 10 ^ d.exponent.toNat = w at thousand
    have fits : w * 10 ^ 1 + 0 < 2 ^ 53 := by omega
    have tenths : (w * 10 ^ 1 + 0) * 1000 = a * 10 ^ 1 := by
      rw [← thousand, Nat.add_zero, Nat.mul_right_comm]
    rw [@binary64?_point w 1 0 (by decide) (by decide) (by decide) fits,
      quotient (by decide) fits tenths]
  · have places_eq : (-d.exponent).toNat = 3 - j := by omega
    have written : Spelling.withPoint (positional false d.digits d.exponent) = ⟨false,
        d.digits / 10 ^ (3 - j), Digit.padded (3 - j) (d.digits % 10 ^ (3 - j)), none⟩ := by
      unfold positional
      rw [if_neg whole, places_eq]
      unfold Spelling.withPoint
      rw [if_neg]
      simp only [List.isEmpty_iff, ← List.length_eq_zero_iff, Digit.length_padded]
      omega
    have sum : d.digits / 10 ^ (3 - j) * 10 ^ (3 - j) + d.digits % 10 ^ (3 - j) = d.digits :=
      Nat.div_add_mod' _ _
    have digits_le : d.digits ≤ a := by
      rw [← digits]
      exact Nat.le_mul_of_pos_right _ (Nat.pow_pos (by decide))
    have thousand : d.digits * 1000 = a * 10 ^ (3 - j) := by
      rw [← digits, Nat.mul_assoc, ← Nat.pow_add, show j + (3 - j) = 3 by omega]
    rw [written, binary64?_point (by omega) (by omega) (Nat.mod_lt _ (Nat.pow_pos (by decide)))
      (by omega), sum, quotient (by omega) (by omega) thousand]

end Numeral

namespace Micros

variable {a b t : Micros}

/-! ## Milliseconds -/

/-- The last time before the first that moves. -/
def exactLimit : Nat := 1000 * 2 ^ 42 + 20

/-- The end of the clock. -/
def last : Micros := ⟨UInt64.ofNat (2 ^ 64 - 1)⟩

theorem le_last (t : Micros) : t ≤ last := by
  have bound := t.count.toNat_lt
  have value : last.count.toNat = 2 ^ 64 - 1 := rfl
  rw [le_iff, value]
  omega

theorem isFinite_millis (t : Micros) : t.millis.isFinite = true :=
  isFinite_div_ofNat t.count.toNat_lt (by decide) (by decide)

theorem thousand_spec : thousand.isFinite = true ∧ thousand.absRat = 1000 :=
  absRat_ofNat (show 1000 < 2 ^ 53 by decide)

/-- Later times have no fewer milliseconds. -/
theorem absRat_millis_mono (le : a ≤ b) : a.millis.absRat ≤ b.millis.absRat := by
  rw [le_iff] at le
  obtain ⟨finite_a, -, -⟩ := absRat_ofNat_bounds a.count.toNat_lt
  obtain ⟨finite_b, bound, -⟩ := absRat_ofNat_bounds b.count.toNat_lt
  obtain ⟨finite, absRat⟩ := thousand_spec
  exact absRat_div_mono finite_a finite_b finite (by rw [absRat]; decide)
    (absRat_ofNat_mono le b.count.toNat_lt) (Rat.le_trans bound (two_zpow_le (by decide)))

theorem absRat_millis_le (t : Micros) : t.millis.absRat ≤ 2 ^ (55 : Int) := by
  have value : last.millis.value = .finite false 4611686018427388 2 := by decide +kernel
  refine Rat.le_trans (absRat_millis_mono t.le_last) ?_
  rw [absRat_of_value value]
  decide +kernel

theorem product_le (t : Micros) : t.millis.absRat * thousand.absRat ≤ 2 ^ (65 : Int) := by
  have bound := t.absRat_millis_le
  have power : (2 : Rat) ^ (55 : Int) * 1000 ≤ 2 ^ (65 : Int) := by decide +kernel
  rw [thousand_spec.2]
  grind

theorem isFinite_product (t : Micros) : (t.millis * thousand).isFinite = true :=
  (mul_near t.isFinite_millis thousand_spec.1 (by decide) (by decide) t.product_le).1

/-- No number of milliseconds is below zero. -/
theorem not_lt_zero_millis (t : Micros) : ¬t.millis.lt .zero := by
  have positive : t.millis.negative = false :=
    negative_div_ofNat t.count.toNat_lt (by decide) (by decide)
  have key : 0 ≤ t.millis.key := by
    unfold key
    rw [positive]
    exact Int.natCast_nonneg _
  unfold lt
  rw [key_zero, decide_eq_false (Int.not_lt.mpr key), Bool.and_false]
  exact Bool.false_ne_true

theorem ofMillis?_of_rounded {n : Nat} (rounded : (t.millis * thousand).roundHalfAway = some n)
    (le : n ≤ 2 ^ 64) : ofMillis? t.millis = some (ofNatSaturating n) := by
  unfold ofMillis?
  rw [if_pos ⟨t.isFinite_millis, t.not_lt_zero_millis⟩]
  unfold ofRounded?
  rw [rounded]
  exact if_pos le

theorem roundHalfAway_mono (le : a ≤ b) : ∃ m n, (a.millis * thousand).roundHalfAway = some m ∧
    (b.millis * thousand).roundHalfAway = some n ∧ m ≤ n := by
  obtain ⟨finite, absRat⟩ := thousand_spec
  refine Binary64.roundHalfAway_mono a.isFinite_product b.isFinite_product
    (absRat_mul_mono a.isFinite_millis b.isFinite_millis finite (absRat_millis_mono le) ?_)
  exact Rat.le_trans b.product_le (two_zpow_le (by decide))

/-- Every time is read as some time, and later times as no earlier ones: the end of the clock is
still in range, and everything in front of it stays in front of it. -/
theorem ofMillis?_mono (le : a ≤ b) :
    ∃ a' b', ofMillis? a.millis = some a' ∧ ofMillis? b.millis = some b' ∧ a' ≤ b' := by
  have at_last : (last.millis * thousand).roundHalfAway = some (2 ^ 64) := by decide +kernel
  obtain ⟨m, n, rounded_a, rounded_b, m_le⟩ := roundHalfAway_mono le
  obtain ⟨n', top, rounded, rounded_last, n_le⟩ := roundHalfAway_mono b.le_last
  cases rounded.symm.trans rounded_b
  cases rounded_last.symm.trans at_last
  refine ⟨_, _, ofMillis?_of_rounded rounded_a (Nat.le_trans m_le n_le),
    ofMillis?_of_rounded rounded_b n_le, ?_⟩
  rw [le_iff, toNat_ofNatSaturating, toNat_ofNatSaturating]
  omega

/-! ## Times that do not move -/

/-- The number of milliseconds is a quotient, rounded once. -/
theorem millis_near {n : Nat} (high : n ≤ 43) (le : t.count.toNat ≤ 1000 * 2 ^ n) :
    Near (2 ^ (n - 54 : Int)) t.millis.absRat (t.count.toNat / 1000) := by
  have power : 2 ^ n ≤ 2 ^ 43 := Nat.pow_le_pow_right (by decide) high
  obtain ⟨finite_count, absRat_count⟩ := absRat_ofNat (n := t.count.toNat) (by omega)
  obtain ⟨finite, absRat⟩ := thousand_spec
  have quotient : (t.count.toNat / 1000 : Rat) * thousand.absRat
      = (ofNat t.count.toNat).absRat := by
    rw [absRat, absRat_count]
    grind
  have bound : (t.count.toNat / 1000 : Rat) ≤ 2 ^ (n : Int) := by
    have cast : (t.count.toNat : Rat) ≤ ((1000 * 2 ^ n : Nat) : Rat) :=
      Rat.natCast_le_natCast.mpr le
    rw [Rat.natCast_mul] at cast
    rw [two_zpow_natCast]
    grind
  have nonzero : thousand.absRat ≠ 0 := by
    rw [absRat]
    decide
  exact (div_near finite_count finite nonzero quotient (by omega) (by omega) bound).2

/-- Both roundings together move a time by less than one half of a microsecond, while the number of
milliseconds has the last bit `2 ^ -11`, up to `2 ^ 42`. -/
theorem ofMillis?_millis_of_le (le : t.count.toNat ≤ 1000 * 2 ^ 42) :
    ofMillis? t.millis = some t := by
  obtain ⟨finite, absRat⟩ := thousand_spec
  obtain ⟨above, below⟩ := millis_near (by decide) le
  have first : (2 : Rat) ^ ((42 : Nat) - 54 : Int) = 1 / 4096 := by decide +kernel
  have second : (2 : Rat) ^ (52 - 54 : Int) = 1 / 4 := two_zpow_neg_two
  have power : (2 : Rat) ^ (52 : Int) = 4503599627370496 := by decide +kernel
  have count_le : (t.count.toNat : Rat) ≤ 4398046511104000 := by
    exact_mod_cast Rat.natCast_le_natCast.mpr le
  have product_le : t.millis.absRat * thousand.absRat ≤ 2 ^ (52 : Int) := by
    rw [absRat, power]
    grind
  obtain ⟨finite_product, above_product, below_product⟩ :=
    mul_near t.isFinite_millis finite (by decide) (by decide) product_le
  rw [first] at above below
  rw [absRat, second] at above_product below_product
  have rounded : (t.millis * thousand).roundHalfAway = some t.count.toNat :=
    roundHalfAway_eq finite_product (by grind) (by grind)
  have bound := t.count.toNat_lt
  rw [ofMillis?_of_rounded rounded (by omega), Option.some_inj, eq_iff, toNat_ofNatSaturating]
  omega

/-- Behind `2 ^ 42` the last bit is `2 ^ -10`, and a few times are left that do not move. -/
theorem ofMillis?_millis_edge : ∀ k : Fin 21,
    ofMillis? (millis ⟨UInt64.ofNat (1000 * 2 ^ 42 + k.val)⟩)
      = some ⟨UInt64.ofNat (1000 * 2 ^ 42 + k.val)⟩ := by
  decide +kernel

/-- A time up to the limit is what its number of milliseconds stands for. -/
theorem ofMillis?_millis (le : t.count.toNat ≤ exactLimit) : ofMillis? t.millis = some t := by
  by_cases edge : t.count.toNat ≤ 1000 * 2 ^ 42
  · exact ofMillis?_millis_of_le edge
  · unfold exactLimit at le
    have at_edge := ofMillis?_millis_edge ⟨t.count.toNat - 1000 * 2 ^ 42, by omega⟩
    have same : 1000 * 2 ^ 42 + (t.count.toNat - 1000 * 2 ^ 42) = t.count.toNat := by omega
    simp only [same, UInt64.ofNat_toNat] at at_edge
    exact at_edge

/-- The time after the limit is the first one that moves. -/
theorem ofMillis?_millis_after_limit :
    ofMillis? (millis ⟨UInt64.ofNat (exactLimit + 1)⟩) = some ⟨UInt64.ofNat (exactLimit + 2)⟩ := by
  decide +kernel

/-- Times up to the limit stay in front of all later ones. -/
theorem ofMillis?_lt (le : a.count.toNat ≤ exactLimit) (lt : a < b) :
    ∃ b', ofMillis? b.millis = some b' ∧ a < b' := by
  by_cases exact_b : b.count.toNat ≤ exactLimit
  · exact ⟨b, ofMillis?_millis exact_b, lt⟩
  · have next : (⟨UInt64.ofNat (exactLimit + 1)⟩ : Micros) ≤ b := by
      rw [le_iff]
      exact Nat.lt_of_not_le exact_b
    obtain ⟨after, b', moved, read, le_b⟩ := ofMillis?_mono next
    cases moved.symm.trans ofMillis?_millis_after_limit
    refine ⟨b', read, ?_⟩
    rw [lt_iff]
    rw [le_iff] at le_b
    exact Nat.lt_of_lt_of_le (Nat.lt_of_le_of_lt le (by decide)) le_b

/-! ## Times in a text -/

/-- A number below `2 ^ 43` has its last bit at `2 ^ -10` or below. -/
theorem exponent_le {x : Binary64} {sign : Bool} {m : Nat} {q : Int}
    (value : x.value = .finite sign m q) (high : (m : Rat) * 2 ^ q < 2 ^ (43 : Int)) :
    q ≤ -10 := by
  rcases normal_of_value value with normal | least
  · have normal_cast : (2 : Rat) ^ (52 : Int) ≤ m := by
      rw [show (2 : Rat) ^ (52 : Int) = ((2 ^ 52 : Nat) : Rat) from two_zpow_natCast 52]
      exact Rat.natCast_le_natCast.mpr normal
    have scaled := Rat.mul_le_mul_of_nonneg_right normal_cast (Rat.le_of_lt (two_zpow_pos q))
    rw [← two_zpow_add] at scaled
    by_contra coarse
    have power := two_zpow_le (show 43 ≤ 52 + q by omega)
    grind
  · omega

/-- A number of milliseconds up to the limit has its last bit below a thousandth. -/
theorem value_millis (le : t.count.toNat ≤ exactLimit) (positive : t.count.toNat ≠ 0) : ∃ m q,
    t.millis.value = .finite false m q ∧ m ≠ 0 ∧ (10 : Rat) ^ (-3 : Int) ≤ m * 2 ^ q ∧
      (m : Rat) * 2 ^ q < 10 ^ (13 : Int) ∧ (2 : Rat) ^ q < 10 ^ (-3 : Int) := by
  obtain ⟨sign, m, q, value⟩ := isFinite_iff.mp t.isFinite_millis
  obtain rfl : sign = false := (negative_of_value value).trans
    (negative_div_ofNat t.count.toNat_lt (by decide) (by decide))
  have absRat := absRat_of_value value
  have low : (10 : Rat) ^ (-3 : Int) ≤ m * 2 ^ q := by
    have first : (millis ⟨1⟩).value = .finite false 4611686018427388 (-62) := by decide +kernel
    have one_le : (⟨1⟩ : Micros) ≤ t := le_iff.mpr (Nat.one_le_iff_ne_zero.mpr positive)
    have mono := absRat_millis_mono one_le
    rw [absRat_of_value first, absRat] at mono
    exact Rat.le_trans (by decide +kernel) mono
  have high : (m : Rat) * 2 ^ q < 2 ^ (43 : Int) := by
    unfold exactLimit at le
    obtain ⟨near, -⟩ := millis_near (n := 43) (by decide)
      (show t.count.toNat ≤ 1000 * 2 ^ 43 by omega)
    have error : (2 : Rat) ^ ((43 : Nat) - 54 : Int) ≤ 1 := by decide +kernel
    have power : (2 : Rat) ^ (43 : Int) = 8796093022208 := by decide +kernel
    have count_le : (t.count.toNat : Rat) ≤ 4398046511104020 := by
      exact_mod_cast Rat.natCast_le_natCast.mpr le
    rw [power, ← absRat]
    grind
  have bit := two_zpow_le (exponent_le value high)
  have thousandth : (2 : Rat) ^ (-10 : Int) < 10 ^ (-3 : Int) := by decide +kernel
  have thirteen : (2 : Rat) ^ (43 : Int) < 10 ^ (13 : Int) := by decide +kernel
  refine ⟨m, q, value, ?_, low, by grind, by grind⟩
  rintro rfl
  have ten_pos : (0 : Rat) < 10 ^ (-3 : Int) := by decide +kernel
  rw [show ((0 : Nat) : Rat) = 0 from rfl, Rat.zero_mul] at low
  grind

/-- The thousandths of a time read back as its number of milliseconds. -/
theorem readsBack_thousandths (small : t.count.toNat < 2 ^ 53) (positive : t.count.toNat ≠ 0)
    {m : Nat} {q : Int} (value : t.millis.value = .finite false m q) :
    (⟨t.count.toNat, -3⟩ : Decimal).readsBack m q = true := by
  have millis_eq : t.millis = ofRatio false t.count.toNat 1000 :=
    div_ofNat small (by decide) (by decide) (by decide) rfl
  have thousandths : (⟨t.count.toNat, -3⟩ : Decimal).rat * (1000 : Nat) = t.count.toNat := by
    have power : (10 : Rat) ^ (-3 : Int) * (1000 : Nat) = 1 := by decide +kernel
    show (t.count.toNat : Rat) * 10 ^ (-3 : Int) * (1000 : Nat) = _
    rw [Rat.mul_assoc, power, Rat.mul_one]
  have range : (⟨t.count.toNat, -3⟩ : Decimal).rat ≤ 2 ^ (1022 : Int) := by
    have count_le : (t.count.toNat : Rat) ≤ 2 ^ (53 : Int) := by
      rw [show (2 : Rat) ^ (53 : Int) = ((2 ^ 53 : Nat) : Rat) from two_zpow_natCast 53]
      exact Rat.natCast_le_natCast.mpr (Nat.le_of_lt small)
    have power : (2 : Rat) ^ (53 : Int) ≤ 2 ^ (1022 : Int) := two_zpow_le (by decide)
    have nonneg : (0 : Rat) ≤ t.count.toNat := Rat.natCast_nonneg
    grind
  exact Decimal.readsBack_of_ofRatio thousandths positive (by decide)
    (unitExponent_le thousandths positive (by decide) range) (millis_eq ▸ value)

/-- A time up to the limit is read from its text. -/
theorem survives (le : t.count.toNat ≤ exactLimit) : t.Survives := by
  refine ⟨?_, ofMillis?_millis le⟩
  rw [survives_iff]
  by_cases positive : t.count.toNat = 0
  · obtain rfl : t = zero := eq_iff.mpr positive
    exact ⟨⟨false, 0, [0], none⟩, by decide +kernel, by decide +kernel⟩
  · obtain ⟨m, q, value, hm, low, high, fine⟩ := value_millis le positive
    unfold exactLimit at le
    obtain ⟨scale_low, scale_high⟩ := Decimal.scale_bounds low high
    have spells := Decimal.shortest_spells .even fine
      (readsBack_thousandths (by omega) positive value) (by omega) (by omega)
    refine ⟨_, ?_, Numeral.binary64?_of_spells spells (by omega)⟩
    unfold wireNumeral?
    rw [value]
    exact congrArg some (Spelling.numeral_of_spells hm positive (by omega) spells)

end Micros

end Heapscope
