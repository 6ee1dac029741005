import Heapscope.Number.Hex
import Heapscope.Replay.Timeline

/-!
# Frames

A frame is a canvas as text: a line that tells the time, and a row of characters for each line of
cells.

* `Timeline.frames` -- the frames of all steps, up to the end of the trace.
-/

namespace Heapscope

/-- The character of a cell: `#` in use, `+` fading, `~` highlighted, `%` tinted, `.` free. -/
def Paint.glyph (p : Paint) : Char :=
  if p.fill.isSome ∧ Binary64.one.le p.alpha then '#'
  else if p.fill.isSome ∧ Binary64.zero.lt p.alpha then '+'
  else if p.highlight.isSome then '~'
  else if p.tint.isSome then '%'
  else '.'

/-- A row of at most `width` cells, with the address of the first. -/
def Canvas.row (c : Canvas) (width index : Nat) : String :=
  let first := index * width
  let glyphs := (c.cells.extract first (first + width)).toList.map Paint.glyph
  "0x" ++ hexPadded 4 first ++ " |" ++ String.ofList glyphs ++ "|\n"

/-- The rows of a canvas; a width of zero counts as one. -/
def Canvas.rows (c : Canvas) (width : Nat) : String :=
  let width := max width 1
  String.join ((List.range ((c.cells.size + width - 1) / width)).map (c.row width))

namespace Timeline

/-- What a frame is called: the last call that has started. -/
def label (r : Timeline) : String :=
  match r.reached with
  | 0 => "start"
  | n + 1 => (r.trace.calls[n]?).elim "start" Call.text

/-- The frame of the current time. -/
def frame (r : Timeline) (width : Nat) : String :=
  let percent := (r.progress * Binary64.ofNat 100).textPlaces 1
  s!"── {r.time.text} / {r.total.text} ({percent}%) {r.label}\n" ++ r.canvas.rows width

/-- The frames from the current time on, at most `count`, up to the end of the trace. -/
def framesFrom (width : Nat) : Nat → Timeline → List String
  | 0, _ => []
  | count + 1, r =>
    r.frame width :: if r.total ≤ r.time then [] else framesFrom width count r.next

/-- The frames of all steps: there is one for each step, at most one before them and at most one
after them. -/
def frames (width : Nat) (r : Timeline) : List String := framesFrom width (r.steps.length + 2) r

end Timeline

end Heapscope
