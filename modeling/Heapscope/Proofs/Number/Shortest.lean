import Heapscope.Number.Shortest
import Heapscope.Proofs.Number.Digits
import Heapscope.Proofs.Number.Monotone

/-!
# The shortest decimal of a number that stands for few digits

A quotient that rounds to a number lies among the reals that read back as the number.  Where these
are closer together than the steps of a decimal grid, at most one point of the grid is among them.
So if the quotient is such a point, the search for the shortest decimal, which goes from coarse
grids to fine ones, finds the quotient and nothing else.

* `Decimal.compareScaled_spec` -- decimals and binary numbers are compared exactly;
* `Decimal.readsBack_of_ofRatio` -- a decimal that rounds to a number reads back as it;
* `Decimal.spells_of_readsBack` -- nothing else does on a grid that is coarse enough;
* `Decimal.shortest_spells` -- the search finds it.
-/

namespace Heapscope

namespace Decimal

open Binary64

/-! ## Exact comparisons -/

theorem ten_ne_zero : (10 : Rat) ≠ 0 := by decide

theorem ten_zpow_pos (k : Int) : (0 : Rat) < 10 ^ k := Rat.zpow_pos (by decide)

/-- Decimals and binary numbers are compared exactly. -/
theorem compareScaled_spec (a : Nat) (i : Int) (n : Nat) (j : Int) :
    (compareScaled a i n j = .lt ↔ (a : Rat) * 10 ^ i < n * 2 ^ j) ∧
      (compareScaled a i n j = .eq ↔ (a : Rat) * 10 ^ i = n * 2 ^ j) ∧
      (compareScaled a i n j = .gt ↔ (n : Rat) * 2 ^ j < a * 10 ^ i) := by
  have ten := pow_toNat ten_ne_zero i
  have two := two_pow_toNat j
  have factor : (0 : Rat) < 10 ^ (-i).toNat * 2 ^ (-j).toNat :=
    Rat.mul_pos (ten_zpow_pos ((-i).toNat : Int)) (two_zpow_pos ((-j).toNat : Int))
  have left : ((a * 10 ^ i.toNat * 2 ^ (-j).toNat : Nat) : Rat)
      = a * 10 ^ i * (10 ^ (-i).toNat * 2 ^ (-j).toNat) := by
    simp only [Rat.natCast_mul, Rat.natCast_pow]
    grind
  have right : ((n * 2 ^ j.toNat * 10 ^ (-i).toNat : Nat) : Rat)
      = n * 2 ^ j * (10 ^ (-i).toNat * 2 ^ (-j).toNat) := by
    simp only [Rat.natCast_mul, Rat.natCast_pow]
    grind
  unfold compareScaled
  rw [Nat.compare_eq_lt, Nat.compare_eq_eq, Nat.compare_eq_gt, ← Rat.natCast_lt_natCast,
    ← Rat.natCast_inj, ← Rat.natCast_lt_natCast, left, right]
  generalize (10 : Rat) ^ (-i).toNat * 2 ^ (-j).toNat = f at factor
  have nonzero : f ≠ 0 := Rat.ne_of_gt factor
  refine ⟨Rat.mul_lt_mul_right factor, ?_, Rat.mul_lt_mul_right factor⟩
  constructor
  · intro eq
    clear left right ten two
    grind
  · intro eq
    rw [eq]

/-! ## What reads back -/

/-- The number that a decimal stands for. -/
def rat (d : Decimal) : Rat := d.digits * 10 ^ d.exponent

/-- The lower end of the reals that round to `m * 2 ^ q`, in quarters of the last bit. -/
def lowEnd (m : Nat) (q : Int) : Nat := if m = 2 ^ 52 ∧ q ≠ -1074 then 4 * m - 1 else 4 * m - 2

variable {m : Nat} {q : Int} {d : Decimal}

theorem readsBack_iff : d.readsBack m q = true ↔
    ((lowEnd m q : Rat) * 2 ^ (q - 2) < d.rat ∨
      m % 2 = 0 ∧ (lowEnd m q : Rat) * 2 ^ (q - 2) = d.rat) ∧
    (d.rat < ((4 * m + 2 : Nat) : Rat) * 2 ^ (q - 2) ∨
      m % 2 = 0 ∧ d.rat = ((4 * m + 2 : Nat) : Rat) * 2 ^ (q - 2)) := by
  obtain ⟨-, low_eq, low_gt⟩ := compareScaled_spec d.digits d.exponent (lowEnd m q) (q - 2)
  obtain ⟨high_lt, high_eq, -⟩ := compareScaled_spec d.digits d.exponent (4 * m + 2) (q - 2)
  show ((compareScaled d.digits d.exponent (lowEnd m q) (q - 2) == .gt
    || (m % 2 == 0 && compareScaled d.digits d.exponent (lowEnd m q) (q - 2) == .eq))
    && (compareScaled d.digits d.exponent (4 * m + 2) (q - 2) == .lt
    || (m % 2 == 0 && compareScaled d.digits d.exponent (4 * m + 2) (q - 2) == .eq))) = true ↔ _
  simp only [Bool.and_eq_true, Bool.or_eq_true, beq_iff_eq, low_eq, low_gt, high_lt, high_eq]
  unfold rat
  rw [eq_comm (a := (lowEnd m q : Rat) * 2 ^ (q - 2))]

/-- A quarter of the last bit. -/
theorem quarter (q : Int) : (2 : Rat) ^ q = 2 ^ (q - 2) * 4 := by
  rw [show (4 : Rat) = 2 ^ (2 : Int) from rfl, ← two_zpow_add, Int.sub_add_cancel]

/-- What reads back as a number is at most half of the last bit away from it. -/
theorem near_of_readsBack (reads : d.readsBack m q = true) :
    Near (2 ^ q / 2) d.rat (m * 2 ^ q) := by
  obtain ⟨low, high⟩ := readsBack_iff.mp reads
  have pos := two_zpow_pos (q - 2)
  have low_end : 4 * (m : Rat) ≤ lowEnd m q + 2 := by
    have le : 4 * m ≤ lowEnd m q + 2 := by
      unfold lowEnd
      split <;> omega
    exact_mod_cast Rat.natCast_le_natCast.mpr le
  have scaled := Rat.mul_le_mul_of_nonneg_right low_end (Rat.le_of_lt pos)
  rw [quarter q]
  simp only [Rat.natCast_add, Rat.natCast_mul, Rat.natCast_ofNat] at high
  constructor
  · grind
  · grind

/-- A quotient halfway between two significands is given the even one. -/
theorem significand_even {num den : Nat} {v : Rat} (hv : v * den = num) (hd : den ≠ 0)
    (half : 2 * v = (2 * significand num den + 1) * 2 ^ unitExponent num den ∨
      2 * v + 2 ^ unitExponent num den = 2 * significand num den * 2 ^ unitExponent num den) :
    significand num den % 2 = 0 := by
  have sides := scaled_eq hv (unitExponent num den)
  have pos := scaled_snd_pos num hd (unitExponent num den)
  have unit_ne := Rat.ne_of_gt (two_zpow_pos (unitExponent num den))
  unfold significand at *
  generalize scaled num den (unitExponent num den) = pair at *
  obtain ⟨n, d⟩ := pair
  simp only at *
  generalize (2 : Rat) ^ unitExponent num den = u at *
  generalize same : nearestEven n d = s at *
  rcases half with above | below
  · have tie : (2 * n : Rat) = (2 * s + 1) * d := by grind
    have tie' : 2 * n = (2 * s + 1) * d := by exact_mod_cast tie
    exact same ▸ nearestEven_even pos tie'
  · have tie : (2 * n + d : Rat) = 2 * s * d := by grind
    have tie' : 2 * n + d = 2 * s * d := by exact_mod_cast tie
    obtain ⟨k, rfl⟩ : ∃ k, s = k + 1 := Nat.exists_eq_succ_of_ne_zero (by rintro rfl; omega)
    exact same ▸ nearestEven_even (k := k) pos (by grind)

theorem significand_near {num den : Nat} {v : Rat} (hv : v * den = num) (hd : den ≠ 0) :
    Near (2 ^ unitExponent num den / 2) (significand num den * 2 ^ unitExponent num den) v :=
  nearestEven_near (two_zpow_pos _) (scaled_snd_pos num hd _) (scaled_eq hv _)

/-- At most half of the last bit away is close enough to read back; below a power of two it is not,
and halfway it is for an even significand only. -/
theorem readsBack_of_half (positive : 0 < d.rat) (low : 2 * (m : Rat) * 2 ^ q ≤ 2 * d.rat + 2 ^ q)
    (high : 2 * d.rat ≤ (2 * (m : Rat) + 1) * 2 ^ q)
    (even : 2 * d.rat = (2 * (m : Rat) + 1) * 2 ^ q ∨ 2 * d.rat + 2 ^ q = 2 * (m : Rat) * 2 ^ q →
      m % 2 = 0)
    (power : m = 2 ^ 52 → q ≠ -1074 → (m : Rat) * 2 ^ q ≤ d.rat) : d.readsBack m q = true := by
  have pos := two_zpow_pos (q - 2)
  rw [readsBack_iff]
  rw [quarter q] at *
  generalize (2 : Rat) ^ (q - 2) = e at *
  constructor
  · by_cases above_power : m = 2 ^ 52 ∧ q ≠ -1074
    · have end_eq : lowEnd m q = 4 * m - 1 := if_pos above_power
      have end_cast : (lowEnd m q : Rat) = 4 * m - 1 := by
        have sum : lowEnd m q + 1 = 4 * m := by omega
        have cast : (lowEnd m q : Rat) + 1 = 4 * m := by exact_mod_cast sum
        grind
      have at_least := power above_power.1 above_power.2
      left
      rw [end_cast]
      grind
    · have end_eq : lowEnd m q = 4 * m - 2 := if_neg above_power
      by_cases zero : m = 0
      · left
        rw [end_eq, zero]
        simpa using positive
      · have end_cast : (lowEnd m q : Rat) = 4 * m - 2 := by
          have sum : lowEnd m q + 2 = 4 * m := by omega
          have cast : (lowEnd m q : Rat) + 2 = 4 * m := by exact_mod_cast sum
          grind
        rw [end_cast]
        by_cases tie : (4 * (m : Rat) - 2) * e = d.rat
        · exact .inr ⟨even (.inr (by grind)), tie⟩
        · left
          grind
  · simp only [Rat.natCast_add, Rat.natCast_mul, Rat.natCast_ofNat]
    by_cases tie : d.rat = (4 * (m : Rat) + 2) * e
    · exact .inr ⟨even (.inl (by grind)), tie⟩
    · left
      grind

/-- A quarter of the last bit below a power of two is close enough, too. -/
theorem readsBack_of_carried (above : q ≠ -1074)
    (low : ((2 ^ 54 - 1 : Nat) : Rat) * 2 ^ (q - 2) ≤ d.rat)
    (high : d.rat < ((2 ^ 54 : Nat) : Rat) * 2 ^ (q - 2)) : d.readsBack (2 ^ 52) q = true := by
  have end_eq : lowEnd (2 ^ 52) q = 2 ^ 54 - 1 := if_pos ⟨rfl, above⟩
  have pos := two_zpow_pos (q - 2)
  rw [readsBack_iff, end_eq]
  refine ⟨?_, .inl ?_⟩
  · by_cases tie : ((2 ^ 54 - 1 : Nat) : Rat) * 2 ^ (q - 2) = d.rat
    · exact .inr ⟨by decide, tie⟩
    · left
      grind
  · grind

/-- A decimal that rounds to a number reads back as it. -/
theorem readsBack_of_ofRatio {num den : Nat} (hv : d.rat * den = num) (hn : num ≠ 0)
    (hd : den ≠ 0) (high : unitExponent num den ≤ 970) {negative sign : Bool}
    (value : (ofRatio negative num den).value = .finite sign m q) : d.readsBack m q = true := by
  rw [value_ofRatio negative hv hn hd high] at value
  have even := significand_even hv hd
  obtain ⟨above, below⟩ := significand_near hv hd
  obtain ⟨bottom, top⟩ := binade_bounds hv hn hd
  have unit : unitExponent num den = max (binade num den - 52) (-1074) := rfl
  generalize significand num den = s at *
  generalize unitExponent num den = u at *
  unfold carried at value
  split at value
  · rename_i carries
    cases value
    have half : (2 : Rat) ^ u = 2 ^ (u - 1) * 2 := by
      rw [← Rat.zpow_add_one Binary64.two_ne_zero, Int.sub_add_cancel]
    have below_power : d.rat < 2 ^ u * ((2 ^ 53 : Nat) : Rat) := by
      rw [← two_zpow_natCast, ← two_zpow_add]
      have le := two_zpow_le (show binade num den + 1 ≤ u + (53 : Nat) by omega)
      grind
    subst carries
    refine readsBack_of_carried (by omega) ?_ ?_
    · rw [show u + 1 - 2 = u - 1 by omega]
      grind
    · rw [show u + 1 - 2 = u - 1 by omega]
      grind
  · cases value
    have positive := two_zpow_pos (binade num den)
    refine readsBack_of_half (by grind) (by grind) (by grind) even fun power above => ?_
    rw [power, ← two_zpow_natCast, ← two_zpow_add, show (52 : Nat) + u = binade num den by omega]
    exact bottom

/-! ## The only decimal of a grid -/

/-- A decimal that is `a * 10 ^ k`, written with `k` or a greater exponent. -/
def Spells (a : Nat) (k : Int) (d : Decimal) : Prop :=
  ∃ j : Nat, d.exponent = k + j ∧ d.digits * 10 ^ j = a

theorem rat_eq_of_exponent {k : Int} {j : Nat} (exponent : d.exponent = k + j) :
    d.rat = ((d.digits * 10 ^ j : Nat) : Rat) * 10 ^ k := by
  unfold rat
  rw [exponent, Rat.zpow_add ten_ne_zero, Rat.zpow_natCast]
  simp only [Rat.natCast_mul, Rat.natCast_pow, Rat.natCast_ofNat]
  grind

/-- Multiples of a step that are less than a step apart are the same. -/
theorem eq_of_close {a b : Nat} {t u : Rat} (less : u < t) (above : (a : Rat) * t ≤ b * t + u)
    (below : (b : Rat) * t ≤ a * t + u) (ht : 0 < t) : a = b := by
  have apart : ∀ {c d : Nat}, c < d → (d : Rat) * t ≤ c * t + u → False := by
    intro c d lt close
    have next : (c : Rat) + 1 ≤ d := by exact_mod_cast Rat.natCast_le_natCast.mpr lt
    have scaled := Rat.mul_le_mul_of_nonneg_right next (Rat.le_of_lt ht)
    grind
  rcases Nat.lt_trichotomy a b with lt | eq | gt
  · exact (apart lt below).elim
  · exact eq
  · exact (apart gt above).elim

variable {a : Nat} {k : Int}

/-- Where the last bit is finer than the grid, one point of the grid reads back at most. -/
theorem spells_of_readsBack (fine : (2 : Rat) ^ q < 10 ^ k)
    (point : (⟨a, k⟩ : Decimal).readsBack m q = true) {j : Nat} (exponent : d.exponent = k + j)
    (reads : d.readsBack m q = true) : Spells a k d := by
  have step_pos := ten_zpow_pos k
  have near := near_of_readsBack reads
  have near' := near_of_readsBack point
  rw [rat_eq_of_exponent exponent] at near
  rw [show (⟨a, k⟩ : Decimal).rat = (a : Rat) * 10 ^ k from rfl] at near'
  refine ⟨j, exponent, eq_of_close fine ?_ ?_ step_pos⟩
  · grind [Near]
  · grind [Near]

theorem onGrid_some {tie : Tie} (found : onGrid tie m q k = some d) :
    d.exponent = k ∧ d.readsBack m q = true := by
  unfold onGrid at found
  simp only at found
  split at found
  · cases found
  · cases found
    exact ⟨rfl, by assumption⟩
  · cases found
    exact ⟨rfl, by assumption⟩
  · split at found
    · cases found
      exact ⟨rfl, by assumption⟩
    · cases found
      exact ⟨rfl, by assumption⟩
    · split at found
      · cases found
        exact ⟨rfl, by assumption⟩
      · cases found
        exact ⟨rfl, by assumption⟩

/-- Nothing is found on a grid when neither neighbour reads back. -/
theorem onGrid_none {tie : Tie} (nothing : onGrid tie m q k = none) :
    ∃ num den : Nat, 0 < den ∧ (m : Rat) * 2 ^ q * den = num * 10 ^ k ∧
      (⟨num / den, k⟩ : Decimal).readsBack m q = false ∧
      (⟨num / den + 1, k⟩ : Decimal).readsBack m q = false := by
  refine ⟨m * 2 ^ q.toNat * 10 ^ (-k).toNat, 2 ^ (-q).toNat * 10 ^ k.toNat,
    Nat.mul_pos (Nat.pow_pos (by decide)) (Nat.pow_pos (by decide)), ?_, ?_⟩
  · have two := two_pow_toNat q
    have ten := pow_toNat ten_ne_zero k
    simp only [Rat.natCast_mul, Rat.natCast_pow, Rat.natCast_ofNat]
    grind
  · unfold onGrid at nothing
    simp only at nothing
    split at nothing
    · exact ⟨by assumption, by assumption⟩
    · cases nothing
    · cases nothing
    · split at nothing
      · cases nothing
      · cases nothing
      · split at nothing <;> cases nothing

/-- A point of a grid that reads back is one of the neighbours, and not missed. -/
theorem onGrid_isSome (tie : Tie) (fine : (2 : Rat) ^ q < 10 ^ k)
    (point : (⟨a, k⟩ : Decimal).readsBack m q = true) : (onGrid tie m q k).isSome = true := by
  rw [Option.isSome_iff_ne_none]
  intro nothing
  obtain ⟨num, den, pos, quotient, low, high⟩ := onGrid_none nothing
  obtain ⟨above, below⟩ := near_of_readsBack point
  rw [show (⟨a, k⟩ : Decimal).rat = (a : Rat) * 10 ^ k from rfl] at above below
  have step_pos := ten_zpow_pos k
  have den_pos : (0 : Rat) < den := Rat.natCast_pos.mpr pos
  have above_den := Rat.mul_le_mul_of_nonneg_right above (Rat.le_of_lt den_pos)
  have below_den := Rat.mul_le_mul_of_nonneg_right below (Rat.le_of_lt den_pos)
  have fine_den := Rat.mul_lt_mul_of_pos_right fine den_pos
  have floor := Nat.div_add_mod' num den
  have rest := Nat.mod_lt num pos
  have not_above : 2 * (a * den) ≤ 2 * num + den := by
    apply Rat.natCast_le_natCast.mp
    apply Rat.le_of_mul_le_mul_right _ step_pos
    simp only [Rat.natCast_mul, Rat.natCast_add, Rat.natCast_ofNat]
    grind
  have not_below : 2 * num ≤ 2 * (a * den) + den := by
    apply Rat.natCast_le_natCast.mp
    apply Rat.le_of_mul_le_mul_right _ step_pos
    simp only [Rat.natCast_mul, Rat.natCast_add, Rat.natCast_ofNat]
    grind
  have neighbour : a = num / den ∨ a = num / den + 1 := by
    rcases Nat.lt_or_ge a (num / den) with less | ge
    · have gap := Nat.mul_le_mul_right den (show a + 1 ≤ num / den from less)
      rw [Nat.add_mul] at gap
      omega
    · rcases Nat.lt_or_ge (num / den + 1) a with more | le
      · have gap := Nat.mul_le_mul_right den (show num / den + 2 ≤ a from more)
        rw [Nat.add_mul] at gap
        omega
      · omega
  rcases neighbour with rfl | rfl
  · rw [low] at point
    cases point
  · rw [high] at point
    cases point

theorem strip_spells (fuel : Nat) (spells : Spells a k d) : Spells a k (strip fuel d) := by
  induction fuel generalizing d with
  | zero => exact spells
  | succ fuel ih =>
    rw [strip]
    split
    · rename_i zero
      obtain ⟨j, exponent, digits⟩ := spells
      refine ih ⟨j + 1, ?_, ?_⟩
      · show d.exponent + 1 = _
        omega
      · show d.digits / 10 * 10 ^ (j + 1) = a
        rw [Nat.pow_succ', ← Nat.mul_assoc, Nat.div_mul_cancel (Nat.dvd_of_mod_eq_zero zero),
          digits]
    · exact spells

/-! ## The search -/

/-- The search upward ends at the first power of ten above a number, unless it starts above it or
runs out of steps. -/
theorem scaleFrom_spec (m : Nat) (q : Int) (fuel : Nat) (start : Int) :
    (scaleFrom m q fuel start = start + fuel ∨
      (m : Rat) * 2 ^ q < 10 ^ scaleFrom m q fuel start) ∧
    (scaleFrom m q fuel start = start ∨
      (10 : Rat) ^ (scaleFrom m q fuel start - 1) ≤ m * 2 ^ q) := by
  induction fuel generalizing start with
  | zero =>
    rw [scaleFrom]
    exact ⟨.inl (by omega), .inl rfl⟩
  | succ fuel ih =>
    obtain ⟨-, -, compared⟩ := compareScaled_spec 1 start m q
    rw [scaleFrom]
    by_cases above : compareScaled 1 start m q = .gt
    · rw [if_pos (beq_iff_eq.mpr above)]
      refine ⟨.inr ?_, .inl rfl⟩
      have less := compared.mp above
      grind
    · rw [if_neg (fun found => above (beq_iff_eq.mp found))]
      obtain ⟨ends, begins⟩ := ih (start + 1)
      refine ⟨ends.imp_left fun out => by omega, .inr ?_⟩
      rcases begins with first | later
      · have at_least := mt compared.mpr above
        rw [first, Int.add_sub_cancel]
        grind
      · exact later

theorem lt_of_ten_zpow_lt {i j : Int} (lt : (10 : Rat) ^ i < 10 ^ j) : i < j := by
  by_contra ge
  have le : (10 : Rat) ^ j ≤ 10 ^ i := zpow_le (by decide) (by omega)
  grind

/-- The number of digits before the point, for numbers of at least a thousandth that have thirteen
digits at most. -/
theorem scale_bounds (low : (10 : Rat) ^ (-3 : Int) ≤ m * 2 ^ q)
    (high : (m : Rat) * 2 ^ q < 10 ^ (13 : Int)) : -2 ≤ scale m q ∧ scale m q ≤ 13 := by
  have positive := ten_zpow_pos (-3)
  have hm : m ≠ 0 := by
    rintro rfl
    rw [show ((0 : Nat) : Rat) = 0 from rfl, Rat.zero_mul] at low
    grind
  have unit_pos := two_zpow_pos q
  have log_le : (2 : Rat) ^ ((m.log2 : Int) + q) ≤ m * 2 ^ q := by
    have cast : ((2 ^ m.log2 : Nat) : Rat) ≤ m := Rat.natCast_le_natCast.mpr (Nat.log2_self_le hm)
    rw [two_zpow_add, two_zpow_natCast]
    exact Rat.mul_le_mul_of_nonneg_right cast (Rat.le_of_lt unit_pos)
  have lt_log : (m : Rat) * 2 ^ q < 2 ^ ((m.log2 : Int) + q + 1) := by
    have cast : (m : Rat) < ((2 ^ (m.log2 + 1) : Nat) : Rat) :=
      Rat.natCast_lt_natCast.mpr Nat.lt_log2_self
    rw [show (m.log2 : Int) + q + 1 = ((m.log2 + 1 : Nat) : Int) + q by omega, two_zpow_add,
      two_zpow_natCast]
    exact Rat.mul_lt_mul_of_pos_right cast unit_pos
  have log_low : -10 ≤ (m.log2 : Int) + q := by
    by_contra small
    have power := two_zpow_le (show (m.log2 : Int) + q + 1 ≤ -10 by omega)
    have thousandth : (2 : Rat) ^ (-10 : Int) < 10 ^ (-3 : Int) := by decide +kernel
    grind
  have log_high : (m.log2 : Int) + q ≤ 43 := by
    by_contra large
    have power := two_zpow_le (show 44 ≤ (m.log2 : Int) + q by omega)
    have thirteen : (10 : Rat) ^ (13 : Int) < 2 ^ (44 : Int) := by decide
    grind
  obtain ⟨ends, begins⟩ := scaleFrom_spec m q 4 (((m.log2 : Int) + q) * 30103 / 100000 - 1)
  change scale m q = _ ∨ _ < (10 : Rat) ^ scale m q at ends
  change scale m q = _ ∨ (10 : Rat) ^ (scale m q - 1) ≤ _ at begins
  constructor
  · rcases ends with out | above
    · omega
    · have lt := lt_of_ten_zpow_lt (show (10 : Rat) ^ (-3 : Int) < 10 ^ scale m q by grind)
      omega
  · rcases begins with first | below
    · omega
    · have lt := lt_of_ten_zpow_lt (show (10 : Rat) ^ (scale m q - 1) < 10 ^ (13 : Int) by grind)
      omega

/-- A point of a grid that reads back is found, whatever coarser grid it is found on first. -/
theorem shortest_spells (tie : Tie) (fine : (2 : Rat) ^ q < 10 ^ k)
    (point : (⟨a, k⟩ : Decimal).readsBack m q = true) (first : k < scale m q)
    (last : scale m q ≤ k + 17) : Spells a k (shortest tie m q) := by
  let grid := fun n : Nat => onGrid tie m q (scale m q - (n + 1 : Nat))
  obtain ⟨n, hn⟩ := Int.eq_ofNat_of_zero_le (show 0 ≤ scale m q - k - 1 by omega)
  have at_n : (grid n).isSome = true := by
    show (onGrid tie m q (scale m q - (n + 1 : Nat))).isSome = true
    rw [show scale m q - (n + 1 : Nat) = k by omega]
    exact onGrid_isSome tie fine point
  have searched : ((List.range 17).findSome? grid).isSome = true :=
    List.findSome?_isSome_iff.mpr ⟨n, List.mem_range.mpr (by omega), at_n⟩
  obtain ⟨d, found⟩ := Option.isSome_iff_exists.mp searched
  have spells : Spells a k d := by
    obtain ⟨before, i, after, split, here, nothing⟩ := List.findSome?_eq_some_iff.mp found
    obtain ⟨exponent, reads⟩ := onGrid_some here
    -- the coarsest grid with a point that reads back is at most as fine as this one
    have position : (List.range 17)[before.length]? = some i := by
      rw [split, List.getElem?_append_right (Nat.le_refl _), Nat.sub_self]
      rfl
    have le : i ≤ n := by
      by_contra later
      have at_n' : (List.range 17)[n]? = some n := List.getElem?_range (by omega)
      have length : i = before.length := by
        rw [List.getElem?_eq_some_iff] at position
        obtain ⟨_, eq⟩ := position
        rw [← eq, List.getElem_range]
      rw [split, List.getElem?_append_left (by omega)] at at_n'
      rw [nothing n (List.mem_of_getElem? at_n')] at at_n
      cases at_n
    exact spells_of_readsBack fine point (j := n - i) (by omega) reads
  have eq : shortest tie m q = strip 400 d := by
    show strip 400 (((List.range 17).findSome? grid).getD _) = _
    rw [found, Option.getD_some]
  rw [eq]
  exact strip_spells 400 spells

end Decimal

/-- In the wire form thousandths are written with a point, and without an exponent. -/
theorem Spelling.numeral_of_spells {m : Nat} {q : Int} {a : Nat} (hm : m ≠ 0) (positive : a ≠ 0)
    (small : a < 10 ^ 16) (spells : Decimal.Spells a (-3) (Decimal.shortest .even m q)) :
    wire.numeral false m q = withPoint (Numeral.positional false
      (Decimal.shortest .even m q).digits (Decimal.shortest .even m q).exponent) := by
  obtain ⟨j, exponent, digits⟩ := spells
  unfold numeral
  rw [if_neg hm]
  simp only [wire, if_true]
  generalize Decimal.shortest .even m q = d at *
  obtain ⟨width, eq, -, low⟩ := decimalWidth_bounds d.digits
  have at_least : 10 ^ width ≤ d.digits := by
    by_cases single : width = 0
    · rw [single]
      exact Nat.one_le_iff_ne_zero.mpr (by rintro zero; rw [zero, Nat.zero_mul] at digits; omega)
    · exact low single
  have power : 10 ^ (width + j) < 10 ^ 16 := by
    rw [Nat.pow_add]
    have scaled := Nat.mul_le_mul_right (10 ^ j) at_least
    omega
  have leading : width + j < 16 := (Nat.pow_lt_pow_iff_right (by decide)).mp power
  rw [if_pos ⟨by omega, by omega⟩]

end Heapscope
