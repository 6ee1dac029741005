import Heapscope.Memory.Occupancy
import Mathlib.Data.Nat.Bitwise

/-!
# Bits of words

Writing the bits of a span changes these bits and no others, as long as the words reach that far;
searching a span finds its least byte with a given bit.  Everything above this file speaks of bits
by `testBit` only and no longer of words and masks.

* `testBit_write` -- the bits after a span was written;
* `firstWith_eq_none_iff`, `firstWith_eq_some` -- what a search finds.
-/

namespace Heapscope

namespace Occupancy

/-! ## One bit -/

theorem toNat_bit (a : Nat) : (bit a).toNat = 2 ^ (a % 64) := by
  have small : a % 64 < 64 := Nat.mod_lt _ (by decide)
  have fits : 2 ^ (a % 64) < 2 ^ 64 := Nat.pow_lt_pow_right (by decide) small
  have shift : (UInt64.ofNat (a % 64)).toNat % 64 = a % 64 := by
    rw [UInt64.toNat_ofNat']
    omega
  unfold bit
  rw [UInt64.toNat_shiftLeft, shift, UInt64.toNat_one, Nat.one_shiftLeft, Nat.mod_eq_of_lt fits]

/-- Masking a word with the bit of a byte tests this bit. -/
theorem and_bit_ne_zero (w : UInt64) (a : Nat) :
    (w &&& bit a != 0) = w.toNat.testBit (a % 64) := by
  have word : (w &&& bit a).toNat = (w.toNat.testBit (a % 64)).toNat * 2 ^ (a % 64) := by
    rw [UInt64.toNat_and, toNat_bit, Nat.and_two_pow]
  have zero : w &&& bit a = 0 ↔ (w &&& bit a).toNat = 0 := by
    rw [← UInt64.toNat_inj]
    rfl
  cases hb : w.toNat.testBit (a % 64) with
  | false => simp [zero, word, hb]
  | true => simp [zero, word, hb]

/-- The bit of a byte, without the mask. -/
theorem testBit_eq (words : Array UInt64) (a : Nat) :
    testBit words a = (words.getD (a / 64) 0).toNat.testBit (a % 64) :=
  and_bit_ne_zero _ a

/-- A word with one of its bits written. -/
theorem testBit_writeWord (value : Bool) (w : UInt64) (a : Nat) {i : Nat} (hi : i < 64) :
    (if value then w ||| bit a else w &&& ~~~bit a).toNat.testBit i
      = if i = a % 64 then value else w.toNat.testBit i := by
  have small : a % 64 < 64 := Nat.mod_lt _ (by decide)
  have fits : 2 ^ (a % 64) < 2 ^ 64 := Nat.pow_lt_pow_right (by decide) small
  cases value with
  | true =>
    rw [if_pos rfl, UInt64.toNat_or, toNat_bit, Nat.testBit_or, Nat.testBit_two_pow]
    by_cases h : i = a % 64
    · simp [h]
    · simp [h, Ne.symm h]
  | false =>
    have mask : (~~~bit a).toNat = 2 ^ 64 - (2 ^ (a % 64) + 1) := by
      rw [UInt64.toNat_not, toNat_bit, Nat.sub_sub, Nat.add_comm 1]
      rfl
    rw [if_neg (by decide), UInt64.toNat_and, mask, Nat.testBit_and,
      Nat.testBit_two_pow_sub_succ fits, Nat.testBit_two_pow]
    by_cases h : i = a % 64
    · simp [h]
    · simp [h, Ne.symm h, hi]

/-- Writing the bit of a byte changes this bit only. -/
theorem testBit_writeBit (value : Bool) {words : Array UInt64} {a : Nat} (b : Nat)
    (h : a / 64 < words.size) :
    testBit (writeBit value words a) b = if b = a then value else testBit words b := by
  have small : b % 64 < 64 := Nat.mod_lt _ (by decide)
  rw [testBit_eq, testBit_eq, writeBit, Array.getD_eq_getD_getElem?, Array.getElem?_modify]
  by_cases hw : a / 64 = b / 64
  · have hb : b / 64 < words.size := hw ▸ h
    have same : b % 64 = a % 64 ↔ b = a := by omega
    rw [if_pos hw, Array.getElem?_eq_getElem hb, Option.map_some, Option.getD_some,
      testBit_writeWord value _ a small, Array.getD_eq_getD_getElem?, Array.getElem?_eq_getElem hb,
      Option.getD_some]
    simp only [same]
  · have ne : b ≠ a := by
      intro e
      exact hw (by rw [e])
    rw [if_neg hw, if_neg ne, Array.getD_eq_getD_getElem?]

/-! ## Spans -/

@[simp] theorem size_write (value : Bool) (words : Array UInt64) (a n : Nat) :
    (write value words a n).size = words.size := by
  induction n generalizing words a with
  | zero => rfl
  | succ n ih => rw [write, ih, writeBit, Array.size_modify]

/-- Writing a span changes the bits of its bytes only. -/
theorem testBit_write (value : Bool) {words : Array UInt64} {a n : Nat} (b : Nat)
    (h : a + n ≤ 64 * words.size) :
    testBit (write value words a n) b = if a ≤ b ∧ b < a + n then value else testBit words b := by
  induction n generalizing words a with
  | zero =>
    have out : ¬(a ≤ b ∧ b < a + 0) := by omega
    rw [write, if_neg out]
  | succ n ih =>
    have size : (writeBit value words a).size = words.size := Array.size_modify
    rw [write, ih (by rw [size]; omega), testBit_writeBit value b (by omega)]
    -- the first byte is written here and never again, since the rest starts behind it
    by_cases hb : b = a
    · have first : ¬(a + 1 ≤ b ∧ b < a + 1 + n) := by omega
      have inside : a ≤ b ∧ b < a + (n + 1) := by omega
      rw [if_neg first, if_pos hb, if_pos inside]
    · have rest : (a + 1 ≤ b ∧ b < a + 1 + n) ↔ (a ≤ b ∧ b < a + (n + 1)) := by omega
      simp only [hb, rest, if_false]

/-- A search finds nothing when no byte of the span has the value. -/
theorem firstWith_eq_none_iff {value : Bool} {words : Array UInt64} {a n : Nat} :
    firstWith value words a n = none ↔ ∀ b, a ≤ b → b < a + n → testBit words b ≠ value := by
  induction n generalizing a with
  | zero =>
    simp only [firstWith, true_iff]
    intro b hle hlt
    omega
  | succ n ih =>
    rw [firstWith]
    by_cases h : testBit words a = value
    · simp only [h, beq_self_eq_true, if_true, reduceCtorEq, false_iff, not_forall]
      exact ⟨a, Nat.le_refl a, by omega, fun ne => ne h⟩
    · simp only [beq_iff_eq, h, if_false, ih]
      constructor
      · intro tail b hle hlt
        rcases Nat.eq_or_lt_of_le hle with rfl | hlt'
        · exact h
        · exact tail b hlt' (by omega)
      · intro all b hle hlt
        exact all b (by omega) (by omega)

/-- What a search finds lies in the span, has the value, and is the least such byte. -/
theorem firstWith_eq_some {value : Bool} {words : Array UInt64} {a n c : Nat}
    (h : firstWith value words a n = some c) :
    a ≤ c ∧ c < a + n ∧ testBit words c = value ∧
      ∀ b, a ≤ b → b < c → testBit words b ≠ value := by
  induction n generalizing a with
  | zero => simp [firstWith] at h
  | succ n ih =>
    rw [firstWith] at h
    by_cases ha : testBit words a = value
    · simp only [ha, beq_self_eq_true, if_true, Option.some.injEq] at h
      subst h
      exact ⟨Nat.le_refl _, by omega, ha, fun b hle hlt => by omega⟩
    · simp only [beq_iff_eq, ha, if_false] at h
      obtain ⟨le, lt, found, least⟩ := ih h
      refine ⟨by omega, by omega, found, ?_⟩
      intro b hle hlt
      rcases Nat.eq_or_lt_of_le hle with rfl | hlt'
      · exact ha
      · exact least b hlt' hlt

end Occupancy

end Heapscope
