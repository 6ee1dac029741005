import Heapscope.Replay.Segment
import Heapscope.Trace.Digest

/-!
# The picture of memory

A picture holds the fill of each cell and the marks over them.  Marks of one kind have distinct
anchors and stand in the order in which they were last applied; later ones cover earlier ones.

* `Picture.apply` -- a mutation that has played to some fraction;
* `Picture.paints` -- how each cell looks, marks included.
-/

namespace Heapscope

/-- The fill of a cell. -/
structure Cell where
  fill : Option Color := none
  /-- The opacity of the fill. -/
  alpha : Binary64 := .zero
deriving DecidableEq, Repr, Inhabited

/-- A highlight over a span. -/
structure RangeMark where
  size : UInt32
  color : Color
  alpha : Binary64
deriving DecidableEq, Repr

/-- A tint over a span. -/
structure ColorMark where
  size : UInt32
  color : Color
deriving DecidableEq, Repr

/-- The marks in effect, by anchor, in the order in which they were last applied. -/
structure Overlay where
  ranges : OrderedMap UInt32 RangeMark := .empty
  texts : OrderedMap UInt32 String := .empty
  pointers : OrderedMap UInt32 UInt32 := .empty
  colors : OrderedMap UInt32 ColorMark := .empty

namespace Overlay

def isEmpty (o : Overlay) : Bool :=
  o.ranges.isEmpty && o.texts.isEmpty && o.pointers.isEmpty && o.colors.isEmpty

/-- The color of highlights and tints that have none. -/
def defaultColor : Color := ⟨0xffd54f, by decide⟩

/-- Adds or removes a mark; a highlight fades in. -/
def apply (o : Overlay) (note : Note) (fraction : Binary64) : Overlay :=
  let anchor := note.address
  let color := note.color.getD defaultColor
  match note.kind with
  | .add .range =>
    let mark : RangeMark := ⟨note.extent, color, note.alpha.getD .half * fraction⟩
    { o with ranges := o.ranges.append anchor mark }
  | .add .text => { o with texts := o.texts.append anchor (note.text.getD "") }
  | .add .pointer => { o with pointers := o.pointers.append anchor (note.target.getD anchor) }
  | .add .color => { o with colors := o.colors.append anchor ⟨note.extent, color⟩ }
  | .remove .range => { o with ranges := o.ranges.erase anchor }
  | .remove .text => { o with texts := o.texts.erase anchor }
  | .remove .pointer => { o with pointers := o.pointers.erase anchor }
  | .remove .color => { o with colors := o.colors.erase anchor }

end Overlay

/-- Changes `count` entries of an array from `start` on. -/
def modifyFrom {α : Type} (f : α → α) (a : Array α) (start : Nat) : Nat → Array α
  | 0 => a
  | count + 1 => modifyFrom f (a.modify start f) (start + 1) count

/-- Changes the entries of a span, as far as the array has them. -/
def modifySpan {α : Type} (f : α → α) (a : Array α) (address size : UInt32) : Array α :=
  modifyFrom f a address.toNat (min size.toNat (a.size - address.toNat))

/-- The fills of all cells and the marks over them. -/
structure Picture where
  cells : Array Cell
  overlay : Overlay := {}

/-- A highlight over a cell. -/
structure Highlight where
  color : Color
  alpha : Binary64
deriving DecidableEq, Repr

/-- How a cell looks. -/
structure Paint where
  fill : Option Color := none
  alpha : Binary64 := .zero
  tint : Option Color := none
  highlight : Option Highlight := none
deriving DecidableEq, Repr, Inhabited

namespace Paint

/-- Whether two highlights look the same. -/
def sameHighlight : Option Highlight → Option Highlight → Bool
  | none, none => true
  | some a, some b => a.color == b.color && a.alpha.same b.alpha
  | _, _ => false

/-- Whether two cells look the same: opacities are compared as numbers. -/
def same (a b : Paint) : Bool :=
  a.fill == b.fill && a.alpha.same b.alpha && a.tint == b.tint
    && sameHighlight a.highlight b.highlight

end Paint

namespace Picture

/-- A picture without fills and marks. -/
def blank (capacity : UInt32) : Picture := { cells := Array.replicate capacity.toNat {} }

/-- The number of cells with a fill. -/
def filled (p : Picture) : Nat := p.cells.countP fun c => c.fill.isSome

/-- A cell whose block has faded out to some fraction. -/
def fade (fraction : Binary64) (c : Cell) : Cell :=
  if Binary64.one.le fraction then {} else { c with alpha := .one - fraction }

/-- The picture after a mutation has played to a fraction. -/
def apply (p : Picture) (mutation : Mutation) (fraction : Binary64) : Picture :=
  match mutation with
  | .fill address size color =>
    { p with cells := modifySpan (fun _ => ⟨some color, fraction⟩) p.cells address size }
  | .clear address size => { p with cells := modifySpan (fade fraction) p.cells address size }
  | .annotate note => { p with overlay := p.overlay.apply note fraction }
  | .idle => p

/-- How each cell looks: its fill, the last tint over it, the last highlight over it. -/
def paints (p : Picture) : Array Paint :=
  let fills := p.cells.map fun c => { fill := c.fill, alpha := c.alpha : Paint }
  let tint := fun (m : ColorMark) (x : Paint) => { x with tint := some m.color }
  let highlight := fun (m : RangeMark) (x : Paint) =>
    { x with highlight := some ⟨m.color, m.alpha⟩ }
  let tinted := p.overlay.colors.entries.foldl
    (fun a e => modifySpan (tint e.2) a e.1 e.2.size) fills
  p.overlay.ranges.entries.foldl (fun a e => modifySpan (highlight e.2) a e.1 e.2.size) tinted

/-- The picture at a time: the segments that have started, each played as far as it is. -/
def ofSegments (capacity : UInt32) (segments : List Segment) (t : Micros) : Picture :=
  play (blank capacity) segments
where
  /-- Plays segments on a picture until one has not started. -/
  play (p : Picture) : List Segment → Picture
    | [] => p
    | s :: rest =>
      match s.fraction t with
      | some fraction => play (p.apply s.mutation fraction) rest
      | none => p

end Picture

namespace Encode

/-- A map in its order, preceded by its size. -/
def marks {ν : Type} (encode : ν → List UInt8) (m : OrderedMap UInt32 ν) : List UInt8 :=
  length m.size ++ m.entries.flatMap fun e => word e.1 ++ encode e.2

/-- The fills of all cells, then the marks of each kind. -/
def picture (p : Picture) : List UInt8 :=
  p.cells.toList.flatMap (fun c => optional color c.fill ++ binary64 c.alpha)
    ++ marks (fun m => word m.size ++ color m.color ++ binary64 m.alpha) p.overlay.ranges
    ++ marks text p.overlay.texts
    ++ marks word p.overlay.pointers
    ++ marks (fun m => word m.size ++ color m.color) p.overlay.colors

end Encode

namespace Picture

def digest (p : Picture) : UInt64 := Heapscope.digest (Encode.picture p)

end Picture

end Heapscope
