import Heapscope.Replay.Canvas

/-!
# Timelines

A timeline shows a trace on a view and can be moved to any time.  Each move builds the picture of
the new time from the start, so it depends on that time only; then the cells that look different
than before are painted.

A *step* is a distinct start time of the trace: calls that start together can only be seen together.
`next` and `prev` move by steps; `setProgress` moves to a part of the whole.
-/

namespace Heapscope

/-- A trace on a view, at some time. -/
structure Timeline (ν : Type := Canvas) [View ν] where
  trace : Trace
  segments : List Segment
  /-- The distinct start times, in order. -/
  steps : List Micros
  /-- What the trace is shown on. -/
  canvas : ν
  /-- The handles of all cells. -/
  handles : List (View.Handle ν)
  picture : Picture
  /-- How the cells looked when they were painted last. -/
  painted : Array Paint
  time : Micros
  total : Micros
  progress : Binary64
  /-- The number of calls that have started. -/
  reached : Nat

/-- Leaves out what equals the element in front of it. -/
def dropRepeats : List Micros → List Micros
  | a :: b :: rest => if a = b then dropRepeats (b :: rest) else a :: dropRepeats (b :: rest)
  | l => l

namespace Timeline

variable {ν : Type} [View ν]

/-- The number of leading segments that have started at a time. -/
def reachedAt (segments : List Segment) (t : Micros) : Nat :=
  (segments.takeWhile fun s => s.start ≤ t).length

/-- The notes of a trace must be valid. -/
def checkNotes (capacity : UInt32) (calls : List Call) : Except ReplayError Unit :=
  calls.forM fun c =>
    match c.op with
    | .annotate note => (note.validate capacity).mapError .invalid
    | _ => .ok ()

/-- The handles of cells of a view. -/
def cells (view : ν) (address size : UInt32) : Except ReplayError (List (View.Handle ν)) :=
  (View.cells view address size).mapError .ofView

/-- The cells that segments touch must be on the view. -/
def checkSpans (view : ν) (segments : List Segment) : Except ReplayError Unit :=
  segments.forM fun s =>
    match s.mutation.span with
    | some (address, size) => (cells view address size).map fun _ => ()
    | none => .ok ()

/-- A trace on a view at time zero. -/
def start (trace : Trace) (view : ν) : Except ReplayError (Timeline ν) := do
  let capacity := View.capacity view
  -- the notes of the whole trace come first, then the calls, then the cells
  checkNotes capacity trace.calls
  let segments ← trace.segments
  checkSpans view segments
  let handles ← cells view 0 capacity
  let picture := Picture.ofSegments capacity segments .zero
  let painted := picture.paints
  pure {
    trace, segments, handles, picture, painted
    steps := dropRepeats (segments.map Segment.start)
    canvas := View.paintAll view handles painted.toList
    time := .zero
    total := trace.totalDuration
    progress := .zero
    reached := reachedAt segments .zero }

/-- Shows the picture of a time. -/
def resolve (r : Timeline ν) (t : Micros) : Timeline ν :=
  let picture := Picture.ofSegments (View.capacity r.canvas) r.segments t
  let paints := picture.paints
  { r with
    picture
    time := t
    reached := reachedAt r.segments t
    canvas := View.paintChanged r.canvas r.handles paints.toList r.painted.toList
    painted := paints }

/-- The part of the whole that has passed at a time. -/
def progressAt (r : Timeline ν) (t : Micros) : Binary64 :=
  if r.total = .zero then if t = .zero then .zero else .one
  else Binary64.ofNat t.count.toNat / Binary64.ofNat r.total.count.toNat

/-- The nearest number in the unit interval. -/
def clampUnit (p : Binary64) : Binary64 :=
  if p.lt .zero then .zero else if Binary64.one.lt p then .one else p

/-- The time nearest to a part of the whole. -/
def timeAt (r : Timeline ν) (p : Binary64) : Micros :=
  Micros.ofNatSaturating ((p * Binary64.ofNat r.total.count.toNat).roundHalfAway.getD 0)

/-- Moves to a part of the whole; nothing happens when that is the current progress. -/
def setProgress (r : Timeline ν) (p : Binary64) : Except ReplayError (Timeline ν) :=
  if p.isNaN then .error (.progress p)
  else
    let p := clampUnit p
    if p.same r.progress then .ok r
    else .ok { r.resolve (r.timeAt p) with progress := p }

/-- Moves to a time, at most the end of the trace. -/
def seek (r : Timeline ν) (t : Micros) : Timeline ν :=
  let t := if t ≤ r.total then t else r.total
  { r.resolve t with progress := r.progressAt t }

/-- Moves to the next step, or to the end of the trace. -/
def next (r : Timeline ν) : Timeline ν :=
  match r.steps.find? fun s => r.time < s with
  | some s => r.seek s
  | none => { r.resolve r.total with progress := .one }

/-- Moves to the last step before the current time, or to time zero. -/
def prev (r : Timeline ν) : Timeline ν :=
  match r.steps.reverse.find? fun s => s < r.time with
  | some s => r.seek s
  | none => { r.resolve .zero with progress := .zero }

/-- The number of steps that have been reached. -/
def reachedSteps (r : Timeline ν) : Nat := (r.steps.takeWhile fun s => s ≤ r.time).length

/-- The index of the first step that has not been reached, or of the last one. -/
def position (r : Timeline ν) : Nat := min r.reachedSteps (r.steps.length - 1)

/-- The index of the last step that has been reached, or of the first one. -/
def altPosition (r : Timeline ν) : Nat := r.reachedSteps - 1

end Timeline

end Heapscope
