import Heapscope.Run.Execution
import Mathlib.Algebra.Group.Int.Defs
import Mathlib.Algebra.Group.Nat.Defs
import Mathlib.Tactic.Common

/-!
# Checks of bounds

A span of 32-bit address and size lies in an address space when the sum, taken without bound, is at
most the capacity.  The checks of notes, of pinned blocks and of an allocator's replies each compute
with 64-bit integers; none of the sums overflows on such values.

* `checkRange?_of_inRange`, `checkRange?_of_overflow` -- the check of a 64-bit address, and where it
  has no answer;
* `checkSpan_eq` -- the check of an address that a workload or a note gives;
* `acceptReturned_ok_iff`, `acceptReturned_of_large` -- the check of what an allocator returned,
  whatever it is.
-/

namespace Heapscope

/-- A word with a sign that is small when it is taken without one is not negative. -/
theorem toInt_of_small {x : Int32} (small : x.toUInt32.toNat < 2 ^ 31) :
    x.toInt = x.toUInt32.toNat :=
  BitVec.toInt_eq_toNat_of_lt (show 2 * x.toUInt32.toNat < 2 ^ 32 by omega)

/-! ## Addresses that are given -/

section Ranges

variable {address : Int64} {size capacity : UInt32}

/-- The end of a range is the unbounded sum, or there is none. -/
theorem endOf?_map_toInt : (endOf? address size).map Int64.toInt =
    if address.toInt + size.toNat < 2 ^ 63 then some (address.toInt + size.toNat) else none := by
  have ha := address.toInt_lt
  have hl := address.le_toInt
  have hs := size.toNat_lt
  have last : Int64.maxValue.toInt = 2 ^ 63 - 1 := rfl
  unfold endOf?
  by_cases inRange : address.toInt + size.toNat < 2 ^ 63
  · rw [if_pos (by omega), if_pos inRange, Option.map_some, Int64.toInt_add, toInt_ofNat_word,
      Int.bmod_eq_of_le (by omega) (by omega)]
  · rw [if_neg (by omega), if_neg inRange, Option.map_none]

/-- The check of a range fails when its end is no 64-bit integer. -/
theorem checkRange?_of_overflow (overflow : 2 ^ 63 ≤ address.toInt + size.toNat) :
    checkRange? address size capacity = none := by
  have hs := size.toNat_lt
  have notNegative : ¬address < 0 := by
    rw [Int64.lt_iff_toInt_lt, Int64.toInt_zero]
    omega
  have noEnd : endOf? address size = none := by
    rw [← Option.map_eq_none_iff, endOf?_map_toInt, if_neg (by omega)]
  unfold checkRange?
  rw [if_neg notNegative, noEnd, Option.map_none]

/-- Otherwise a range is accepted exactly when it fits. -/
theorem checkRange?_of_inRange (inRange : address.toInt + size.toNat < 2 ^ 63) :
    checkRange? address size capacity = some
      (if 0 ≤ address.toInt ∧ address.toInt + size.toNat ≤ capacity.toNat then .ok ()
        else .error (.outside address size capacity)) := by
  have ends := @endOf?_map_toInt address size
  rw [if_pos inRange] at ends
  obtain ⟨stop, found, exact_sum⟩ := Option.map_eq_some_iff.mp ends
  have negative : address < 0 ↔ address.toInt < 0 := by
    rw [Int64.lt_iff_toInt_lt, Int64.toInt_zero]
  have beyond : Int64.ofNat capacity.toNat < stop
      ↔ (capacity.toNat : Int) < address.toInt + size.toNat := by
    rw [Int64.lt_iff_toInt_lt, toInt_ofNat_word, exact_sum]
  unfold checkRange?
  simp only [negative, found, Option.map_some, beyond]
  split
  · rw [if_neg (by omega)]
  · split
    · rw [if_neg (by omega)]
    · rw [if_pos (by omega)]

end Ranges

/-- A span given by an address is accepted when it fits, and refused for its bytes otherwise. -/
theorem checkSpan_eq (address size capacity : UInt32) :
    checkSpan address size capacity =
      if address.toNat + size.toNat ≤ capacity.toNat then .ok ()
      else .error (.outside (.ofNat address.toNat) size capacity) := by
  have ha := address.toNat_lt
  have hs := size.toNat_lt
  have inRange : (Int64.ofNat address.toNat).toInt + size.toNat < 2 ^ 63 := by
    rw [toInt_ofNat_word]
    omega
  have fits : (0 ≤ (Int64.ofNat address.toNat).toInt ∧
      (Int64.ofNat address.toNat).toInt + size.toNat ≤ capacity.toNat)
        ↔ address.toNat + size.toNat ≤ capacity.toNat := by
    rw [toInt_ofNat_word]
    omega
  unfold checkSpan
  simp only [checkRange?_of_inRange inRange, Option.get_some, fits]

theorem checkSpan_ok_iff {address size capacity : UInt32} :
    checkSpan address size capacity = .ok () ↔ address.toNat + size.toNat ≤ capacity.toNat := by
  rw [checkSpan_eq]
  split <;> simp_all

theorem checkSpan_error {address size capacity : UInt32} {i : Invalid}
    (error : checkSpan address size capacity = .error i) :
    i = .outside (.ofNat address.toNat) size capacity := by
  rw [checkSpan_eq] at error
  split at error
  · cases error
  · cases error
    rfl

/-! ## Addresses that an allocator returned -/

/-- A saturating sum is the exact one, moved to the nearer end of the range. -/
theorem toInt_saturatingAdd (a b : Int64) :
    (saturatingAdd a b).toInt = max (-2 ^ 63) (min (2 ^ 63 - 1) (a.toInt + b.toInt)) := by
  unfold saturatingAdd
  rw [Int64.toInt_minValue, Int64.toInt_maxValue]
  exact Int64.toInt_ofInt_of_le (by omega) (by omega)

/-- What an allocator returned is accepted exactly when the block fits; then it is the address. -/
theorem acceptReturned_ok_iff {size capacity address : UInt32} {returned : Int64} :
    acceptReturned size returned capacity = .ok address
      ↔ returned.toInt = address.toNat ∧ address.toNat + size.toNat ≤ capacity.toNat := by
  have hc := capacity.toNat_lt
  have hr := returned.toInt_lt
  -- saturation keeps a sum that is too large above every capacity
  have beyond : Int64.ofNat capacity.toNat < saturatingAdd returned (Int64.ofNat size.toNat)
      ↔ (capacity.toNat : Int) < returned.toInt + size.toNat := by
    rw [Int64.lt_iff_toInt_lt, toInt_saturatingAdd, toInt_ofNat_word, toInt_ofNat_word]
    have hs := size.toNat_lt
    omega
  have negative : returned < 0 ↔ returned.toInt < 0 := by
    rw [Int64.lt_iff_toInt_lt, Int64.toInt_zero]
  unfold acceptReturned
  simp only [beyond, negative]
  split
  · simp only [reduceCtorEq, false_iff]
    omega
  · rename_i accepted
    have word : (UInt32.ofNat returned.toNatClampNeg).toNat = returned.toInt.toNat := by
      rw [UInt32.toNat_ofNat', ← Int64.toNat_toInt]
      omega
    simp only [Except.ok.injEq, ← UInt32.toNat_inj, word]
    omega

/-- What an allocator returned is refused for lack of room only. -/
theorem acceptReturned_error {size capacity : UInt32} {returned : Int64} {e : Refusal}
    (error : acceptReturned size returned capacity = .error e) :
    e = .outOfMemory size returned capacity := by
  unfold acceptReturned at error
  simp only at error
  split at error
  · cases error
    rfl
  · cases error

/-- Whatever an allocator returns for a block that is larger than the address space, there is no
room for it. -/
theorem acceptReturned_of_large {size capacity : UInt32} (large : capacity < size)
    (returned : Int64) :
    acceptReturned size returned capacity = .error (.outOfMemory size returned capacity) := by
  cases accepted : acceptReturned size returned capacity with
  | ok address =>
    have fits := (acceptReturned_ok_iff.mp accepted).2
    have beyond := UInt32.lt_iff_toNat_lt.mp large
    omega
  | error e => rw [acceptReturned_error accepted]

end Heapscope
