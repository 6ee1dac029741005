import Heapscope.Color

/-!
# Palettes

Blocks without a color of their own take the colors of a palette in turn.
-/

namespace Heapscope

/-- Colors that are taken in turn. -/
structure Palette where
  colors : List Color
deriving DecidableEq, Repr

namespace Palette

/-- The first color of the default palette. -/
def firstColor : Color := ⟨0x4c8bf5, by decide⟩

def default : Palette :=
  ⟨[firstColor, ⟨0xf5a04c, by decide⟩, ⟨0x5cc46a, by decide⟩, ⟨0xe0565b, by decide⟩,
    ⟨0x9b6ad6, by decide⟩, ⟨0x4cc9c0, by decide⟩, ⟨0xd6a84c, by decide⟩, ⟨0x8c8c8c, by decide⟩]⟩

/-- The color whose turn it is after `n` others; an empty palette has only the first default
color. -/
def color (p : Palette) (n : Nat) : Color := p.colors.getD (n % p.colors.length) firstColor

end Palette

end Heapscope
