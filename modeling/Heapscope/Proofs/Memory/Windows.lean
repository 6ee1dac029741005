import Mathlib.Tactic.Common

/-!
# Windows of free bytes

Where a block of some size can go: the windows of so many consecutive bytes, none of which is in
use.  They are stated for any set of bytes in use, so that an allocator's own map and the map of a
run can be compared.

* `Window.Free` -- a window without a byte in use;
* `Window.Least`, `Window.Full` -- the lowest free window of an address space, and that there is
  none.
-/

namespace Heapscope

namespace Window

/-- None of `size` bytes from `start` on is in use. -/
def Free (used : Nat → Prop) (start size : Nat) : Prop :=
  ∀ b, start ≤ b → b < start + size → ¬used b

/-- The lowest window of `size` free bytes begins at `start`. -/
structure Least (used : Nat → Prop) (capacity size start : Nat) : Prop where
  fits : start + size ≤ capacity
  free : Free used start size
  least : ∀ a, a < start → ¬Free used a size

/-- No window of `size` bytes is free. -/
def Full (used : Nat → Prop) (capacity size : Nat) : Prop :=
  ∀ start, start + size ≤ capacity → ¬Free used start size

variable {used : Nat → Prop} {capacity size start : Nat}

theorem free_zero (start : Nat) : Free used start 0 := by
  intro b le lt
  omega

/-- A longer window is free when its first byte and the rest are. -/
theorem free_succ_iff : Free used start (size + 1) ↔ ¬used start ∧ Free used (start + 1) size := by
  constructor
  · intro free
    exact ⟨free start (Nat.le_refl _) (by omega), fun b le lt => free b (by omega) (by omega)⟩
  · rintro ⟨first, rest⟩ b le lt
    rcases Nat.eq_or_lt_of_le le with rfl | later
    · exact first
    · exact rest b later (by omega)

/-- A window that holds a byte in use is not free. -/
theorem not_free_of_used {b : Nat} (le : start ≤ b) (lt : b < start + size) (held : used b) :
    ¬Free used start size :=
  fun free => free b le lt held

end Window

end Heapscope
