import Heapscope.Replay.Picture

/-!
# Views and canvases

A view displays one cell per address.  It hands out a handle for each cell, and a cell is painted
through its handle; what a view does with the paint is its own affair.

A canvas is the view that keeps what was painted last.  It counts how often a cell was painted.
-/

namespace Heapscope

/-- Some of the `size` cells from `address` on are not displayed. -/
structure ViewFault where
  address : UInt32
  size : UInt32
  capacity : UInt32
deriving DecidableEq, Repr

/-- The replay error that follows from a fault of a view. -/
def ReplayError.ofView (e : ViewFault) : ReplayError := .outsideView e.address e.size e.capacity

/-- What can be displayed on: values of `ν` are displays in some state. -/
class View (ν : Type) where
  /-- What a cell is painted through. -/
  Handle : Type
  /-- The number of cells. -/
  capacity : ν → UInt32
  /-- The handles of `size` cells from `address` on, in the order of their addresses. -/
  cells : ν → UInt32 → UInt32 → Except ViewFault (List Handle)
  /-- Paints one cell. -/
  paint : ν → Handle → Paint → ν

namespace View

variable {ν : Type} [View ν]

/-- Paints cells one after the other. -/
def paintAll (view : ν) : List (Handle ν) → List Paint → ν
  | h :: handles, p :: paints => paintAll (paint view h p) handles paints
  | _, _ => view

/-- Paints the cells that look different than before. -/
def paintChanged (view : ν) : List (Handle ν) → List Paint → List Paint → ν
  | h :: handles, new :: news, old :: olds =>
    paintChanged (if new.same old then view else paint view h new) handles news olds
  | _, _, _ => view

end View

/-- Cells that can be painted. -/
structure Canvas where
  capacity : UInt32
  cells : Array Paint
  /-- How often a cell was painted. -/
  count : Nat := 0

namespace Canvas

/-- A canvas on which nothing has been painted. -/
def blank (capacity : UInt32) : Canvas := ⟨capacity, Array.replicate capacity.toNat {}, 0⟩

/-- Refuses cells that the canvas does not have, by a sum of 64-bit numbers. -/
def checkCells (c : Canvas) (address size : UInt32) : Except ViewFault Unit :=
  if c.capacity.toUInt64 < address.toUInt64 + size.toUInt64 then
    .error ⟨address, size, c.capacity⟩
  else .ok ()

/-- Paints one cell. -/
def paint (c : Canvas) (index : Nat) (p : Paint) : Canvas :=
  { c with cells := c.cells.setIfInBounds index p, count := c.count + 1 }

/-- Cells are painted by their index. -/
instance : View Canvas where
  Handle := Nat
  capacity := capacity
  cells c address size := do
    c.checkCells address size
    pure (List.range' address.toNat size.toNat)
  paint := paint

/-- The addresses of the cells whose fill can be seen. -/
def visible (c : Canvas) : List Nat :=
  (List.range c.cells.size).filter fun i =>
    let p := c.cells.getD i {}
    p.fill.isSome && Binary64.zero.lt p.alpha

end Canvas

end Heapscope
