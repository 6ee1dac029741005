import Heapscope.Proofs.Bounds
import Heapscope.Proofs.Memory.Spans
import Heapscope.Proofs.Replay.Opening

/-!
# One condition, checked four times

Whether a span lies in an address space is asked in four places, each with arithmetic of its own:
the check of an address of 64 bits adds in 64-bit integers and fails when the sum overflows, the
check of an allocator's reply adds in the same and stops at the end of their range, and the occupied
bytes and the cells of a canvas add 32-bit numbers in 64-bit words.

All four are the comparison of the unbounded sum, except for the first one at the upper end of the
64-bit integers.  There a range is not refused, as it should be: the check gives no answer.

* `Fits` -- the condition, on integers without bound;
* `bounds_agree` -- the four checks decide it, and where the first one does not;
* `checkRange?_of_limit` -- a range far beyond the address space, for which there is no answer.
-/

namespace Heapscope

/-- All of the `size` bytes from an address on lie in an address space. -/
def Fits (address : Int) (size capacity : UInt32) : Prop :=
  0 ≤ address ∧ address + size.toNat ≤ capacity.toNat

instance (address : Int) (size capacity : UInt32) : Decidable (Fits address size capacity) :=
  inferInstanceAs (Decidable (_ ∧ _))

theorem fits_natCast {address : Nat} {size capacity : UInt32} :
    Fits address size capacity ↔ address + size.toNat ≤ capacity.toNat := by
  unfold Fits
  omega

/-! ## The checks -/

theorem exists_endOf? {address : Int64} {size : UInt32}
    (inRange : address.toInt + size.toNat < 2 ^ 63) :
    ∃ stop, endOf? address size = some stop ∧ stop.toInt = address.toInt + size.toNat := by
  rw [← Option.map_eq_some_iff, endOf?_map_toInt, if_pos inRange]

/-- Where the sum overflows, no range fits. -/
theorem not_fits_of_overflow {address : Int} {size : UInt32}
    (overflow : 2 ^ 63 ≤ address + size.toNat) (capacity : UInt32) :
    ¬Fits address size capacity := by
  have hc := capacity.toNat_lt
  unfold Fits
  omega

/-- A reply is the address when the block fits. -/
theorem acceptReturned_of_fits {returned : Int64} {size capacity : UInt32}
    (fits : Fits returned.toInt size capacity) :
    ∃ address : UInt32, acceptReturned size returned capacity = .ok address ∧
      returned.toInt = address.toNat := by
  obtain ⟨notNegative, inside⟩ := fits
  have hc := capacity.toNat_lt
  have word : (UInt32.ofNat returned.toInt.toNat).toNat = returned.toInt.toNat := by
    rw [UInt32.toNat_ofNat', Nat.mod_eq_of_lt (by omega)]
  refine ⟨.ofNat returned.toInt.toNat, acceptReturned_ok_iff.mpr ⟨?_, ?_⟩, ?_⟩
  all_goals
    rw [word]
    omega

theorem acceptReturned_error_iff {returned : Int64} {size capacity : UInt32} :
    acceptReturned size returned capacity = .error (.outOfMemory size returned capacity)
      ↔ ¬Fits returned.toInt size capacity := by
  constructor
  · intro refused fits
    obtain ⟨address, accepted, -⟩ := acceptReturned_of_fits fits
    rw [accepted] at refused
    cases refused
  · intro beyond
    cases accepted : acceptReturned size returned capacity with
    | ok address =>
      obtain ⟨value, inside⟩ := acceptReturned_ok_iff.mp accepted
      rw [value] at beyond
      exact absurd (fits_natCast.mpr inside) beyond
    | error e => rw [acceptReturned_error accepted]

namespace Occupancy

variable {o : Occupancy} {address size : UInt32}

theorem mark_outside_iff :
    o.mark address size = .error (.outside address size o.capacity)
      ↔ ¬Fits address.toNat size o.capacity := by
  rw [fits_natCast, ← fits_iff]
  unfold mark
  cases o.fits address size with
  | false => simp
  | true => cases firstWith true o.words address.toNat size.toNat <;> simp

theorem clear_outside_iff :
    o.clear address size = .error (.outside address size o.capacity)
      ↔ ¬Fits address.toNat size o.capacity := by
  rw [fits_natCast, ← fits_iff]
  unfold clear
  cases o.fits address size with
  | false => simp
  | true => cases firstWith false o.words address.toNat size.toNat <;> simp

end Occupancy

/-! ## They agree -/

/-- The four checks of a span decide the comparison of the unbounded sum: the one of an allocator's
reply for every number it may return, those of the occupied bytes and of a canvas for every address,
and the one of an address of 64 bits whenever its sum is a 64-bit integer, which it is for every
address of 32 bits.  When the sum is none, the range does not fit, and this check fails instead of
refusing it. -/
theorem bounds_agree (size capacity : UInt32) :
    (∀ address : Int64, address.toInt + size.toNat < 2 ^ 63 →
      (∃ stop, endOf? address size = some stop ∧ stop.toInt = address.toInt + size.toNat) ∧
      checkRange? address size capacity = some
        (if Fits address.toInt size capacity then .ok ()
          else .error (.outside address size capacity))) ∧
    (∀ address : Int64, 2 ^ 63 ≤ address.toInt + size.toNat →
      checkRange? address size capacity = none ∧ ¬Fits address.toInt size capacity) ∧
    (∀ returned : Int64,
      (acceptReturned size returned capacity = .error (.outOfMemory size returned capacity)
        ↔ ¬Fits returned.toInt size capacity) ∧
      (Fits returned.toInt size capacity →
        ∃ address : UInt32, acceptReturned size returned capacity = .ok address ∧
          returned.toInt = address.toNat)) ∧
    ∀ address : UInt32,
      checkRange? (.ofNat address.toNat) size capacity = some (checkSpan address size capacity) ∧
      (checkSpan address size capacity = .ok () ↔ Fits address.toNat size capacity) ∧
      (∀ o : Occupancy, o.capacity = capacity →
        (o.fits address size = true ↔ Fits address.toNat size capacity) ∧
        (o.mark address size = .error (.outside address size capacity)
          ↔ ¬Fits address.toNat size capacity) ∧
        (o.clear address size = .error (.outside address size capacity)
          ↔ ¬Fits address.toNat size capacity)) ∧
      ∀ c : Canvas, c.capacity = capacity →
        (c.checkCells address size = .ok () ↔ Fits address.toNat size capacity) := by
  refine ⟨fun address inRange => ⟨exists_endOf? inRange, checkRange?_of_inRange inRange⟩,
    fun address overflow => ⟨checkRange?_of_overflow overflow, not_fits_of_overflow overflow _⟩,
    fun returned => ⟨acceptReturned_error_iff, acceptReturned_of_fits⟩,
    fun address => ⟨(Option.some_get _).symm, ?word, ?occupancy, ?canvas⟩⟩
  case word => rw [checkSpan_ok_iff, fits_natCast]
  case occupancy =>
    rintro o rfl
    exact ⟨Occupancy.fits_iff.trans fits_natCast.symm, Occupancy.mark_outside_iff,
      Occupancy.clear_outside_iff⟩
  case canvas =>
    rintro c rfl
    rw [Canvas.checkCells_ok_iff, fits_natCast]

/-- The last address whose sum with the greatest size is a 64-bit integer, a reply at the end of the
address space, and the first address whose sum with one is none. -/
theorem bounds_agree_of_limits :
    ((9223372032559808512 : Int64).toInt + (4294967295 : UInt32).toNat < 2 ^ 63 ∧
      ¬Fits (9223372032559808512 : Int64).toInt 4294967295 16 ∧
      checkRange? 9223372032559808512 4294967295 16 =
        some (.error (.outside 9223372032559808512 4294967295 16))) ∧
    (Fits (15 : Int64).toInt 1 16 ∧
      ∃ address : UInt32, acceptReturned 1 15 16 = .ok address ∧
        (15 : Int64).toInt = address.toNat) ∧
    2 ^ 63 ≤ (9223372036854775807 : Int64).toInt + (1 : UInt32).toNat ∧
      checkRange? 9223372036854775807 1 16 = none := by
  have inRange : (9223372032559808512 : Int64).toInt + (4294967295 : UInt32).toNat < 2 ^ 63 := by
    decide
  have beyond : ¬Fits (9223372032559808512 : Int64).toInt 4294967295 16 := by decide
  have fits : Fits (15 : Int64).toInt 1 16 := by decide
  have overflow : 2 ^ 63 ≤ (9223372036854775807 : Int64).toInt + (1 : UInt32).toNat := by decide
  obtain ⟨exact_sum, -⟩ := bounds_agree 4294967295 16
  obtain ⟨-, overflows, reply, -⟩ := bounds_agree 1 16
  refine ⟨⟨inRange, beyond, ?_⟩, ⟨fits, (reply 15).2 fits⟩, overflow, (overflows _ overflow).1⟩
  rw [(exact_sum _ inRange).2, if_neg beyond]

/-- For one byte at the greatest 64-bit address in an address space of sixteen the check fails; it
should refuse the range. -/
theorem checkRange?_of_limit :
    checkRange? 9223372036854775807 1 16 = none ∧
      ¬Fits (9223372036854775807 : Int64).toInt 1 16 := by
  decide

end Heapscope
