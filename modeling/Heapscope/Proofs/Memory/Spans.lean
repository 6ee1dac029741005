import Heapscope.Proofs.Memory.Words

/-!
# Spans of bytes in use

An occupancy as the set of its bytes in use: marking a span adds its bytes when none of them is in
use, clearing takes them away when all of them are.

* `Holds` -- a byte is in use;
* `mark_verdict`, `clear_verdict` -- what comes of marking and clearing, refusals included.
-/

namespace Heapscope

namespace Occupancy

/-- The words reach as far as the address space. -/
def WellFormed (o : Occupancy) : Prop := o.capacity.toNat ≤ 64 * o.words.size

/-- A byte is in use. -/
def Holds (o : Occupancy) (b : Nat) : Prop := b < o.capacity.toNat ∧ testBit o.words b = true

theorem isMarked_iff {o : Occupancy} {a : UInt32} : o.isMarked a = true ↔ o.Holds a.toNat := by
  unfold isMarked Holds
  rw [Bool.and_eq_true, decide_eq_true_eq, UInt32.lt_iff_toNat_lt]

theorem wellFormed_empty (capacity : UInt32) : (empty capacity).WellFormed := by
  show capacity.toNat ≤ 64 * (Array.replicate ((capacity.toNat + 63) / 64) (0 : UInt64)).size
  rw [Array.size_replicate]
  omega

theorem not_holds_empty (capacity : UInt32) (b : Nat) : ¬(empty capacity).Holds b := by
  intro h
  have bit := h.2
  rw [testBit_eq] at bit
  unfold empty at bit
  rw [Array.getD_eq_getD_getElem?, Array.getElem?_replicate] at bit
  split at bit <;> simp at bit

/-- The sum of two 32-bit numbers does not wrap in 64 bits. -/
theorem fits_iff {o : Occupancy} {a n : UInt32} :
    o.fits a n = true ↔ a.toNat + n.toNat ≤ o.capacity.toNat := by
  have ha := a.toNat_lt
  have hn := n.toNat_lt
  have sum : (a.toUInt64 + n.toUInt64).toNat = a.toNat + n.toNat := by
    rw [UInt64.toNat_add, UInt32.toNat_toUInt64, UInt32.toNat_toUInt64, Nat.mod_eq_of_lt (by omega)]
  unfold fits
  rw [decide_eq_true_eq, UInt64.le_iff_toNat_le, sum, UInt32.toNat_toUInt64]

/-! ## Marking -/

/-- What marking a span leads to. -/
structure Marked (o : Occupancy) (a n : UInt32) (o' : Occupancy) : Prop where
  fits : a.toNat + n.toNat ≤ o.capacity.toNat
  free : ∀ b, a.toNat ≤ b → b < a.toNat + n.toNat → ¬o.Holds b
  holds : ∀ b, o'.Holds b ↔ o.Holds b ∨ (a.toNat ≤ b ∧ b < a.toNat + n.toNat)
  wellFormed : o'.WellFormed
  capacity : o'.capacity = o.capacity
  occupied : o'.occupied = o.occupied + n.toNat
  peak : o'.peak = if n = 0 then o.peak else
    some (o.peak.elim (a + n - 1) (max (a + n - 1)))

/-- Marking succeeds, or the span does not fit, or the least of its bytes that is in use is
named. -/
theorem mark_verdict {o : Occupancy} (wf : o.WellFormed) (a n : UInt32) :
    (∃ o', o.mark a n = .ok o' ∧ o.Marked a n o') ∨
    (o.mark a n = .error (.outside a n o.capacity) ∧ o.capacity.toNat < a.toNat + n.toNat) ∨
    (∃ b, o.mark a n = .error (.inUse (UInt32.ofNat b)) ∧
      a.toNat + n.toNat ≤ o.capacity.toNat ∧ a.toNat ≤ b ∧ b < a.toNat + n.toNat ∧ o.Holds b ∧
      ∀ c, a.toNat ≤ c → c < b → ¬o.Holds c) := by
  unfold mark
  by_cases fit : o.fits a n = true
  · have bound : a.toNat + n.toNat ≤ o.capacity.toNat := fits_iff.mp fit
    rw [fit, if_neg (by decide)]
    -- the search for a byte in use decides between refusing and marking
    cases first : firstWith true o.words a.toNat n.toNat with
    | some b =>
      obtain ⟨le, lt, found, least⟩ := firstWith_eq_some first
      refine .inr (.inr ⟨b, rfl, bound, le, lt, ⟨by omega, found⟩, ?_⟩)
      intro c hle hlt held
      exact least c hle hlt held.2
    | none =>
      have free := firstWith_eq_none_iff.mp first
      refine .inl ⟨_, rfl, bound, ?_, ?_, ?_, rfl, rfl, rfl⟩
      · intro b hle hlt held
        exact free b hle hlt held.2
      · intro b
        have written := testBit_write true b (Nat.le_trans bound wf)
        show b < o.capacity.toNat ∧ testBit (write true o.words a.toNat n.toNat) b = true ↔ _
        rw [written]
        unfold Holds
        by_cases inside : a.toNat ≤ b ∧ b < a.toNat + n.toNat
        · have small : b < o.capacity.toNat := by omega
          simp [inside, small]
        · simp [inside]
      · show o.capacity.toNat ≤ 64 * (write true o.words a.toNat n.toNat).size
        rw [size_write]
        exact wf
  · have bound : ¬a.toNat + n.toNat ≤ o.capacity.toNat := fun le => fit (fits_iff.mpr le)
    rw [Bool.not_eq_true] at fit
    rw [fit, if_pos (by decide)]
    exact .inr (.inl ⟨rfl, by omega⟩)

theorem marked_of_mark_ok {o o' : Occupancy} (wf : o.WellFormed) {a n : UInt32}
    (h : o.mark a n = .ok o') : o.Marked a n o' := by
  rcases mark_verdict wf a n with ⟨o₁, ok, marked⟩ | ⟨error, -⟩ | ⟨b, error, -⟩
  · rw [ok] at h
    cases h
    exact marked
  · rw [error] at h
    cases h
  · rw [error] at h
    cases h

/-! ## Clearing -/

/-- What clearing a span leads to. -/
structure Cleared (o : Occupancy) (a n : UInt32) (o' : Occupancy) : Prop where
  fits : a.toNat + n.toNat ≤ o.capacity.toNat
  used : ∀ b, a.toNat ≤ b → b < a.toNat + n.toNat → o.Holds b
  holds : ∀ b, o'.Holds b ↔ o.Holds b ∧ ¬(a.toNat ≤ b ∧ b < a.toNat + n.toNat)
  wellFormed : o'.WellFormed
  capacity : o'.capacity = o.capacity
  occupied : o'.occupied = o.occupied - n.toNat
  peak : o'.peak = o.peak

/-- Clearing succeeds, or the span does not fit, or the least of its bytes that is not in use is
named. -/
theorem clear_verdict {o : Occupancy} (wf : o.WellFormed) (a n : UInt32) :
    (∃ o', o.clear a n = .ok o' ∧ o.Cleared a n o') ∨
    (o.clear a n = .error (.outside a n o.capacity) ∧ o.capacity.toNat < a.toNat + n.toNat) ∨
    (∃ b, o.clear a n = .error (.unused (UInt32.ofNat b)) ∧
      a.toNat + n.toNat ≤ o.capacity.toNat ∧ a.toNat ≤ b ∧ b < a.toNat + n.toNat ∧ ¬o.Holds b ∧
      ∀ c, a.toNat ≤ c → c < b → o.Holds c) := by
  unfold clear
  by_cases fit : o.fits a n = true
  · have bound : a.toNat + n.toNat ≤ o.capacity.toNat := fits_iff.mp fit
    rw [fit, if_neg (by decide)]
    -- the search for a free byte decides between refusing and clearing
    cases first : firstWith false o.words a.toNat n.toNat with
    | some b =>
      obtain ⟨le, lt, found, least⟩ := firstWith_eq_some first
      refine .inr (.inr ⟨b, rfl, bound, le, lt, ?_, ?_⟩)
      · intro held
        rw [held.2] at found
        cases found
      · intro c hle hlt
        exact ⟨by omega, Bool.not_eq_false _ ▸ least c hle hlt⟩
    | none =>
      have used := firstWith_eq_none_iff.mp first
      refine .inl ⟨_, rfl, bound, ?_, ?_, ?_, rfl, rfl, rfl⟩
      · intro b hle hlt
        exact ⟨by omega, Bool.not_eq_false _ ▸ used b hle hlt⟩
      · intro b
        have written := testBit_write false b (Nat.le_trans bound wf)
        show b < o.capacity.toNat ∧ testBit (write false o.words a.toNat n.toNat) b = true ↔ _
        rw [written]
        unfold Holds
        by_cases inside : a.toNat ≤ b ∧ b < a.toNat + n.toNat
        · simp [inside]
        · simp [inside]
      · show o.capacity.toNat ≤ 64 * (write false o.words a.toNat n.toNat).size
        rw [size_write]
        exact wf
  · have bound : ¬a.toNat + n.toNat ≤ o.capacity.toNat := fun le => fit (fits_iff.mpr le)
    rw [Bool.not_eq_true] at fit
    rw [fit, if_pos (by decide)]
    exact .inr (.inl ⟨rfl, by omega⟩)

theorem cleared_of_clear_ok {o o' : Occupancy} (wf : o.WellFormed) {a n : UInt32}
    (h : o.clear a n = .ok o') : o.Cleared a n o' := by
  rcases clear_verdict wf a n with ⟨o₁, ok, cleared⟩ | ⟨error, -⟩ | ⟨b, error, -⟩
  · rw [ok] at h
    cases h
    exact cleared
  · rw [error] at h
    cases h
  · rw [error] at h
    cases h

end Occupancy

end Heapscope
