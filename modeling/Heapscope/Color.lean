import Heapscope.Number.Hex

/-!
# Colors

A color has 24 bits: red, green and blue from the top byte down.
-/

namespace Heapscope

/-- A 24-bit color. -/
structure Color where
  value : UInt32
  /-- No bits above the 24. -/
  small : value.toNat ≤ 0xffffff := by decide
deriving DecidableEq, Repr

namespace Color

/-- The color of a number that has no bits above the 24. -/
def ofNumber? (n : UInt32) : Option Color :=
  if h : n.toNat ≤ 0xffffff then some ⟨n, h⟩ else none

/-- The color of the low 24 bits of a number. -/
def ofLowBits (n : UInt32) : Color :=
  ⟨n &&& 0xffffff, by rw [UInt32.toNat_and]; exact Nat.and_le_right⟩

instance : Inhabited Color := ⟨⟨0, by decide⟩⟩

def text (c : Color) : String := "#" ++ hexPadded 6 c.value.toNat

end Color

end Heapscope
