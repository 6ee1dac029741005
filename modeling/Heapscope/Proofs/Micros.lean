import Heapscope.Call
import Mathlib.Algebra.Group.Nat.Defs
import Mathlib.Tactic.Common

/-!
# Times as numbers

Comparisons of times are comparisons of their counts, and sums stop at the last time.  Every proof
about the clock goes through these equations to the natural numbers.

* `Micros.lt_iff`, `Micros.le_iff`, `Micros.toNat_add`, `Micros.toNat_sub` -- times as numbers;
* `Call.time_le_finish` -- a call does not end before it starts, even at the end of the clock.
-/

namespace Heapscope

namespace Micros

variable {a b : Micros}

theorem lt_iff : a < b ↔ a.count.toNat < b.count.toNat := UInt64.lt_iff_toNat_lt

theorem le_iff : a ≤ b ↔ a.count.toNat ≤ b.count.toNat := UInt64.le_iff_toNat_le

theorem eq_iff : a = b ↔ a.count.toNat = b.count.toNat := by
  rw [UInt64.toNat_inj]
  constructor
  · rintro rfl
    rfl
  · intro count
    cases a
    cases b
    cases count
    rfl

theorem not_lt : ¬a < b ↔ b ≤ a := by
  rw [lt_iff, le_iff]
  omega

theorem not_le : ¬a ≤ b ↔ b < a := by
  rw [lt_iff, le_iff]
  omega

theorem lt_asymm (lt : a < b) : ¬b < a := by
  rw [lt_iff] at *
  omega

theorem not_lt_zero (t : Micros) : ¬t < .zero := by
  rw [lt_iff]
  exact Nat.not_lt_zero _

theorem zero_lt_or_eq (t : Micros) : .zero < t ∨ t = .zero := by
  have zero : Micros.zero.count.toNat = 0 := rfl
  rw [lt_iff, eq_iff]
  omega

theorem toNat_ofNatSaturating (n : Nat) :
    (ofNatSaturating n).count.toNat = min n (2 ^ 64 - 1) := by
  show (UInt64.ofNat (min n (2 ^ 64 - 1))).toNat = _
  rw [UInt64.toNat_ofNat']
  omega

theorem toNat_add (a b : Micros) :
    (a + b).count.toNat = min (a.count.toNat + b.count.toNat) (2 ^ 64 - 1) :=
  toNat_ofNatSaturating _

theorem toNat_sub (a b : Micros) : (a - b).count.toNat = a.count.toNat - b.count.toNat := by
  have bound := a.count.toNat_lt
  have eq : (a - b).count.toNat = min (a.count.toNat - b.count.toNat) (2 ^ 64 - 1) :=
    toNat_ofNatSaturating _
  rw [eq]
  omega

theorem toNat_max (a b : Micros) : (max a b).count.toNat = max a.count.toNat b.count.toNat := by
  show (if a ≤ b then b else a).count.toNat = _
  rw [Nat.max_def]
  simp only [le_iff]
  split <;> rfl

end Micros

/-- A call does not end before it starts, even at the end of the clock. -/
theorem Call.time_le_finish (c : Call) : c.time ≤ c.finish := by
  have bound := c.time.count.toNat_lt
  unfold finish
  rw [Micros.le_iff, Micros.toNat_add]
  omega

end Heapscope
