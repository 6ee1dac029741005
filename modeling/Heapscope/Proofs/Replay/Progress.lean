import Heapscope.Proofs.Replay.Seeking

/-!
# Progress and time

Progress and time are two accounts of one place on a timeline, and moves go from either to the other
by a rounding.  On traces shorter than `2 ^ 52` microseconds, about 142 years, the two never come
apart: the progress of a time leads back to this time, so a timeline that is moved to a progress
shows the same whatever was done before.  On longer traces it does not.

* `timeOf_eq`, `timeOf_le` -- the time of a progress, from bounds on their product;
* `timeOf_div` -- the progress of a time leads back to it;
* `Timeline.Timed` -- what every move keeps;
* `Timeline.setProgress_determines` -- what is shown at a progress;
* `Timeline.setProgress_of_longSleep` -- a trace on which it depends on the moves before.
-/

namespace Heapscope

open Binary64

namespace Timeline

/-- The time nearest to a part of a whole. -/
def timeOf (total : Micros) (p : Binary64) : Micros :=
  Micros.ofNatSaturating ((p * Binary64.ofNat total.count.toNat).roundHalfAway.getD 0)

/-! ## From progress to time -/

variable {total t : Micros} {p : Binary64}

/-- A whole below `2 ^ 52` is kept, so the product with it is rounded once. -/
theorem product_near (small : total.count.toNat < 2 ^ 52) (finite : p.isFinite = true)
    (le : p.absRat * total.count.toNat ≤ 2 ^ (52 : Int)) :
    (p * ofNat total.count.toNat).isFinite = true ∧
      Near (1 / 4) (p * ofNat total.count.toNat).absRat (p.absRat * total.count.toNat) := by
  obtain ⟨finite_total, absRat_total⟩ := absRat_ofNat (n := total.count.toNat) (by omega)
  have near := mul_near finite finite_total (by omega) (by omega) (absRat_total.symm ▸ le)
  rwa [absRat_total, show (52 - 54 : Int) = -2 from rfl, two_zpow_neg_two] at near

theorem total_add_one_le (small : total.count.toNat < 2 ^ 52) :
    (total.count.toNat : Rat) + 1 ≤ 2 ^ (52 : Int) := by
  rw [show (2 : Rat) ^ (52 : Int) = ((2 ^ 52 : Nat) : Rat) from two_zpow_natCast 52]
  have whole : ((total.count.toNat + 1 : Nat) : Rat) ≤ ((2 ^ 52 : Nat) : Rat) :=
    Rat.natCast_le_natCast.mpr small
  rwa [Rat.natCast_add] at whole

theorem timeOf_eq (small : total.count.toNat < 2 ^ 52) (finite : p.isFinite = true)
    (le : t ≤ total) (low : (t.count.toNat : Rat) < p.absRat * total.count.toNat + 1 / 4)
    (high : p.absRat * total.count.toNat < t.count.toNat + 1 / 4) : timeOf total p = t := by
  rw [Micros.le_iff] at le
  have le_total : (t.count.toNat : Rat) ≤ total.count.toNat := Rat.natCast_le_natCast.mpr le
  have below := total_add_one_le small
  obtain ⟨finite_product, above, beneath⟩ := product_near small finite (by grind)
  have rounded : (p * ofNat total.count.toNat).roundHalfAway = some t.count.toNat :=
    roundHalfAway_eq finite_product (by grind) (by grind)
  unfold timeOf
  rw [rounded, Micros.eq_iff, Micros.toNat_ofNatSaturating]
  have bound_t := t.count.toNat_lt
  simp only [Option.getD_some]
  omega

/-- No part of a whole comes after it. -/
theorem timeOf_le (small : total.count.toNat < 2 ^ 52) (finite : p.isFinite = true)
    (le_one : p.absRat ≤ 1) : timeOf total p ≤ total := by
  have below := total_add_one_le small
  have product_le : p.absRat * total.count.toNat ≤ 1 * total.count.toNat :=
    Rat.mul_le_mul_of_nonneg_right le_one Rat.natCast_nonneg
  obtain ⟨finite_product, above, -⟩ := product_near small finite (by grind)
  obtain ⟨n, rounded, le⟩ := roundHalfAway_le finite_product
    (show 2 * (p * ofNat total.count.toNat).absRat < 2 * (total.count.toNat : Rat) + 1 by grind)
  unfold timeOf
  rw [rounded, Micros.le_iff, Micros.toNat_ofNatSaturating]
  simp only [Option.getD_some]
  omega

/-- A part that is a time as it is. -/
theorem timeOf_of_mul_eq (small : total.count.toNat < 2 ^ 52) (finite : p.isFinite = true)
    (le : t ≤ total) (eq : p.absRat * total.count.toNat = t.count.toNat) : timeOf total p = t :=
  timeOf_eq small finite le (by grind) (by grind)

theorem timeOf_one (small : total.count.toNat < 2 ^ 52) : timeOf total .one = total := by
  refine timeOf_of_mul_eq small (by decide) (Micros.le_iff.mpr (Nat.le_refl _)) ?_
  rw [absRat_one, Rat.one_mul]

/-- Both zeros lead to time zero. -/
theorem timeOf_of_magnitude_eq_zero (small : total.count.toNat < 2 ^ 52)
    (zero : p.magnitude = 0) : timeOf total p = .zero := by
  have finite : p.isFinite = true := by
    unfold isFinite
    rw [zero]
    decide
  refine timeOf_of_mul_eq small finite (Micros.le_iff.mpr (Nat.zero_le _)) ?_
  rw [absRat_of_magnitude_eq_zero zero, Rat.zero_mul]
  rfl

/-! ## From time to progress and back -/

/-- The quotient is off by `2 ^ -54` at most, and the whole is too small to make that a quarter. -/
theorem timeOf_div (small : total.count.toNat < 2 ^ 52) (positive : total.count.toNat ≠ 0)
    (le : t ≤ total) :
    timeOf total (ofNat t.count.toNat / ofNat total.count.toNat) = t := by
  have le_nat := Micros.le_iff.mp le
  have le_total : (t.count.toNat : Rat) ≤ total.count.toNat := Rat.natCast_le_natCast.mpr le_nat
  have total_pos : (0 : Rat) < total.count.toNat :=
    Rat.natCast_pos.mpr (Nat.pos_of_ne_zero positive)
  have below := total_add_one_le small
  obtain ⟨finite_t, absRat_t⟩ := absRat_ofNat (n := t.count.toNat) (by omega)
  obtain ⟨finite_total, absRat_total⟩ := absRat_ofNat (n := total.count.toNat) (by omega)
  have quotient : (t.count.toNat : Rat) / total.count.toNat * total.count.toNat = t.count.toNat :=
    Rat.div_mul_cancel (Rat.ne_of_gt total_pos)
  have quotient_le : (t.count.toNat : Rat) / total.count.toNat ≤ 2 ^ (0 : Int) := by
    apply Rat.le_of_mul_le_mul_right _ total_pos
    rw [quotient, Rat.zpow_zero, Rat.one_mul]
    exact le_total
  obtain ⟨finite, above, beneath⟩ := div_near finite_t finite_total
    (absRat_total.symm ▸ Rat.ne_of_gt total_pos) (by rw [absRat_t, absRat_total, quotient])
    (by omega) (by omega) quotient_le
  have error : (2 : Rat) ^ (0 - 54 : Int) * 2 ^ (52 : Int) = 1 / 4 := by
    rw [← two_zpow_add]
    exact two_zpow_neg_two
  have above' := Rat.mul_le_mul_of_nonneg_right above (Rat.le_of_lt total_pos)
  have beneath' := Rat.mul_le_mul_of_nonneg_right beneath (Rat.le_of_lt total_pos)
  have small_error := Rat.mul_lt_mul_of_pos_left
    (show (total.count.toNat : Rat) < 2 ^ (52 : Int) by grind) (two_zpow_pos (0 - 54))
  refine timeOf_eq small finite le ?_ ?_
  · grind
  · grind

-- on a whole between `2 ^ 52` and `2 ^ 53` the progress of a time may lead to the time after it
example : timeOf ⟨9007199254740989⟩ (ofNat 4503599627370495 / ofNat 9007199254740989)
    = ⟨4503599627370496⟩ := by
  rfl

/-! ## The unit interval -/

/-- A progress is moved into the unit interval. -/
theorem clampUnit_key (number : p.isNaN = false) :
    0 ≤ (clampUnit p).key ∧ (clampUnit p).key ≤ Binary64.one.key := by
  unfold clampUnit
  by_cases below : p.lt .zero = true
  · rw [if_pos below]
    decide
  · rw [if_neg below]
    by_cases above : Binary64.one.lt p = true
    · rw [if_pos above]
      decide
    · rw [if_neg above]
      have zero_number : Binary64.zero.isNaN = false := by decide
      have one_number : Binary64.one.isNaN = false := by decide
      simp only [Binary64.lt, number, zero_number, one_number, key_zero, Bool.not_false,
        Bool.true_and, decide_eq_true_eq] at below above
      omega

theorem clampUnit_of_one_le (number : p.isNaN = false) (le : Binary64.one.le p = true) :
    clampUnit p = .one := by
  obtain ⟨-, -, key_le⟩ := le_iff.mp le
  have one_key : Binary64.one.key = 1023 * 2 ^ 52 := by decide
  have zero_number : Binary64.zero.isNaN = false := by decide
  have one_number : Binary64.one.isNaN = false := by decide
  have not_below : ¬p.lt .zero = true := by
    simp only [Binary64.lt, number, zero_number, key_zero, Bool.not_false, Bool.true_and,
      decide_eq_true_eq]
    omega
  unfold clampUnit
  rw [if_neg not_below]
  by_cases above : Binary64.one.lt p = true
  · rw [if_pos above]
  · rw [if_neg above]
    simp only [Binary64.lt, number, one_number, Bool.not_false, Bool.true_and,
      decide_eq_true_eq] at above
    -- a number with the key of one is one
    rcases eq_or_zero_of_key_eq (Int.le_antisymm (Int.not_lt.mp above) key_le) with same | ⟨-, zero⟩
    · exact same
    · exact absurd zero (by decide)

/-! ## Moves -/

variable {ν : Type} [View ν]

/-- Time and progress of a timeline agree. -/
structure Timed (trace : Trace) (segments : List Segment) (capacity : UInt32)
    (r : Timeline ν) : Prop extends Current trace segments capacity r where
  time_le : r.time ≤ trace.totalDuration
  time_eq : timeOf trace.totalDuration r.progress = r.time

namespace Timed

variable [LawfulView ν] {trace : Trace} {segments : List Segment} {capacity : UInt32}
  {r s : Timeline ν}

theorem opened (small : trace.totalDuration.count.toNat < 2 ^ 52) (view : ν)
    (handles : List (View.Handle ν)) :
    Timed trace segments (View.capacity view) (opened trace view segments handles) where
  toCurrent := .opened view handles
  time_le := Micros.le_iff.mpr (Nat.zero_le _)
  time_eq := by
    show timeOf trace.totalDuration .zero = .zero
    exact timeOf_of_magnitude_eq_zero small (by decide)

/-- A move to a time and to a progress that leads to it. -/
theorem resolve (timed : Timed trace segments capacity r) {p : Binary64} {t : Micros}
    (le : t ≤ trace.totalDuration) (eq : timeOf trace.totalDuration p = t) :
    Timed trace segments capacity { r.resolve t with progress := p } where
  toCurrent := timed.toCurrent.resolve t p
  time_le := le
  time_eq := eq

theorem seek (small : trace.totalDuration.count.toNat < 2 ^ 52)
    (timed : Timed trace segments capacity r) (t : Micros) :
    Timed trace segments capacity (r.seek t) := by
  unfold Timeline.seek
  simp only
  have le : (if t ≤ r.total then t else r.total) ≤ trace.totalDuration := by
    rw [timed.total_eq]
    split
    · assumption
    · exact Micros.le_iff.mpr (Nat.le_refl _)
  generalize (if t ≤ r.total then t else r.total) = t at le
  refine timed.resolve le ?_
  unfold progressAt
  rw [timed.total_eq]
  by_cases empty : trace.totalDuration = .zero
  · -- a trace that takes no time has one time only
    have zero : t = .zero := by
      rw [empty, Micros.le_iff] at le
      exact Micros.eq_iff.mpr (Nat.le_zero.mp le)
    rw [if_pos empty, if_pos zero, zero]
    exact timeOf_of_magnitude_eq_zero small (by decide)
  · rw [if_neg empty]
    exact timeOf_div small (fun zero => empty (Micros.eq_iff.mpr zero)) le

/-- Of a progress that is not new the time is that of the progress before. -/
theorem setProgress (small : trace.totalDuration.count.toNat < 2 ^ 52)
    (timed : Timed trace segments capacity r) {p : Binary64} (number : p.isNaN = false) :
    ∃ s, r.setProgress p = .ok s ∧ Timed trace segments capacity s ∧
      s.time = timeOf trace.totalDuration (clampUnit p) := by
  obtain ⟨nonneg, le_one⟩ := clampUnit_key number
  obtain ⟨finite, absRat_le⟩ := absRat_of_key nonneg le_one
  unfold Timeline.setProgress
  rw [number]
  simp only [Bool.false_eq_true, if_false]
  by_cases same : (clampUnit p).same r.progress = true
  · rw [if_pos same]
    refine ⟨r, rfl, timed, ?_⟩
    rw [← timed.time_eq]
    obtain ⟨-, -, key⟩ := same_iff.mp same
    rcases eq_or_zero_of_key_eq key with eq | ⟨zero, zero'⟩
    · rw [eq]
    · rw [timeOf_of_magnitude_eq_zero small zero, timeOf_of_magnitude_eq_zero small zero']
  · rw [if_neg same]
    have time : r.timeAt (clampUnit p) = timeOf trace.totalDuration (clampUnit p) := by
      rw [← timed.total_eq]
      rfl
    rw [time]
    exact ⟨_, rfl, timed.resolve (timeOf_le small finite absRat_le) rfl, rfl⟩

theorem next (small : trace.totalDuration.count.toNat < 2 ^ 52)
    (timed : Timed trace segments capacity r) : Timed trace segments capacity r.next := by
  unfold Timeline.next
  split
  · exact timed.seek small _
  · rw [timed.total_eq]
    exact timed.resolve (Micros.le_iff.mpr (Nat.le_refl _)) (timeOf_one small)

theorem prev (small : trace.totalDuration.count.toNat < 2 ^ 52)
    (timed : Timed trace segments capacity r) : Timed trace segments capacity r.prev := by
  unfold Timeline.prev
  split
  · exact timed.seek small _
  · exact timed.resolve (Micros.le_iff.mpr (Nat.zero_le _))
      (timeOf_of_magnitude_eq_zero small (by decide))

theorem moved (small : trace.totalDuration.count.toNat < 2 ^ 52)
    (timed : Timed trace segments capacity r) (moved : r.Moved s) :
    Timed trace segments capacity s := by
  induction moved with
  | refl => exact timed
  | @setProgress s s' p _ ok ih =>
    have number : p.isNaN = false := by
      unfold Timeline.setProgress at ok
      by_contra nan
      rw [Bool.not_eq_false] at nan
      rw [if_pos nan] at ok
      cases ok
    obtain ⟨s'', ok', timed', -⟩ := ih.setProgress small number
    rw [ok] at ok'
    cases ok'
    exact timed'
  | seek t _ ih => exact ih.seek small t
  | next _ ih => exact ih.next small
  | prev _ ih => exact ih.prev small

end Timed

/-- On a trace shorter than `2 ^ 52` microseconds no time is beyond the end, and whatever moves came
before, moving to a progress shows the same: the same time, the same picture and the same painted
cells.  At a progress of one or more that is the end, where all calls have started and ended. -/
theorem setProgress_determines [LawfulView ν] {trace : Trace} {view : ν} {r₀ : Timeline ν}
    (ok : start trace view = .ok r₀) (small : trace.totalDuration.count.toNat < 2 ^ 52)
    {p : Binary64} (number : p.isNaN = false) :
    (∀ s, r₀.Moved s → s.time ≤ trace.totalDuration) ∧
    ∀ s₁ s₂, r₀.Moved s₁ → r₀.Moved s₂ →
      ∃ r₁ r₂, s₁.setProgress p = .ok r₁ ∧ s₂.setProgress p = .ok r₂ ∧
        r₁.time = r₂.time ∧ r₁.picture = r₂.picture ∧ r₁.painted = r₂.painted ∧
        r₁.reached = r₂.reached ∧ r₁.time ≤ trace.totalDuration ∧
        (Binary64.one.le p = true → r₁.time = trace.totalDuration ∧
          r₁.reached = trace.calls.length ∧ ∀ c ∈ trace.calls, c.played r₁.time = .one) := by
  obtain ⟨segments, handles, -, found, -, -, rfl⟩ := start_ok_iff.mp ok
  have timed : Timed trace segments (View.capacity view) (opened trace view segments handles) :=
    .opened small view handles
  refine ⟨fun s moved => (timed.moved small moved).time_le, ?_⟩
  intro s₁ s₂ moved₁ moved₂
  obtain ⟨r₁, ok₁, timed₁, time₁⟩ := (timed.moved small moved₁).setProgress small number
  obtain ⟨r₂, ok₂, timed₂, time₂⟩ := (timed.moved small moved₂).setProgress small number
  have time : r₁.time = r₂.time := time₁.trans time₂.symm
  obtain ⟨picture, painted, reached⟩ := timed₂.toCurrent.agree timed₁.toCurrent time
  refine ⟨r₁, r₂, ok₁, ok₂, time, picture, painted, reached, timed₁.time_le, ?_⟩
  intro one_le
  have ended : r₁.time = trace.totalDuration := by
    rw [time₁, clampUnit_of_one_le number one_le, timeOf_one small]
  refine ⟨ended, ?_, ?_⟩
  · rw [timed₁.reached_eq_countP (segments_playedBy found), ended, countP_totalDuration]
  · intro c member
    rw [ended]
    exact Call.played_of_finish_le (finish_le_totalDuration member)

/-- Two ways to the end of a block that is highlighted. -/
theorem setProgress_determines_of_highlightedBlock :
    ∃ r₀ : Timeline Canvas, start highlightedBlock (Canvas.blank 4) = .ok r₀ ∧
      ∃ r₁ r₂, (r₀.seek ⟨7⟩).setProgress .one = .ok r₁ ∧ r₀.next.setProgress .one = .ok r₂ ∧
        r₁.painted = r₂.painted ∧ r₁.time = highlightedBlock.totalDuration := by
  obtain ⟨r₀, ok⟩ : ∃ r₀ : Timeline Canvas, start highlightedBlock (Canvas.blank 4) = .ok r₀ :=
    ⟨_, rfl⟩
  obtain ⟨-, determines⟩ := setProgress_determines ok (by decide) (p := .one) (by decide)
  obtain ⟨r₁, r₂, ok₁, ok₂, -, -, painted, -, -, ends⟩ :=
    determines _ _ (.seek ⟨7⟩ .refl) (.next .refl)
  exact ⟨r₀, ok, r₁, r₂, ok₁, ok₂, painted, (ends (by decide)).1⟩

/-- A call that starts `2 ^ 53` microseconds in. -/
def longSleep : Trace where
  calls := [⟨.sleep, none, none, 0, ⟨9007199254740992⟩, ⟨3⟩⟩]
  inOrder := List.pairwise_singleton _ _

/-- The end of this trace is no binary64 number and rounds up, so a progress of one goes beyond it,
unless the timeline was moved to the end by steps, and stays there. -/
theorem setProgress_of_longSleep :
    ∃ r₀ r₁ r₂ : Timeline Canvas, start longSleep (Canvas.blank 1) = .ok r₀ ∧
      r₀.setProgress .one = .ok r₁ ∧ r₀.next.next.setProgress .one = .ok r₂ ∧
      r₂.time = longSleep.totalDuration ∧ longSleep.totalDuration < r₁.time :=
  ⟨_, _, _, rfl, rfl, rfl, rfl, by decide⟩

end Timeline

end Heapscope
