import Heapscope.OrderedMap
import Heapscope.Trace.Basic

/-!
# Segments

Each call of a trace is a segment of the timeline: from its start to its end it plays a mutation of
the picture.  Allocations fade in, releases fade out.  A release knows only its address; how many
bytes it covers follows from the allocation that returned this address.
-/

namespace Heapscope

/-- A change of the picture. -/
inductive Mutation where
  /-- A block fades in. -/
  | fill (address size : UInt32) (color : Color)
  /-- A block fades out. -/
  | clear (address size : UInt32)
  /-- A mark is added or removed. -/
  | annotate (note : Note)
  /-- Nothing changes. -/
  | idle
deriving DecidableEq, Repr

namespace Mutation

/-- The color of blocks that have none. -/
def defaultColor : Color := .ofLowBits 0x4c8bf5

/-- The cells that a mutation touches: the first one and their number. -/
def span : Mutation → Option (UInt32 × UInt32)
  | fill address size _ | clear address size => some (address, size)
  | annotate note => some (note.address, note.extent)
  | idle => none

end Mutation

/-- A mutation on the timeline. -/
structure Segment where
  /-- The index of the call. -/
  call : Nat
  start : Micros
  finish : Micros
  mutation : Mutation
deriving DecidableEq, Repr

namespace Segment

/-- How far a segment has played at a time: none before its start, one from its end on, and in
between the part of its length that has passed. -/
def fraction (s : Segment) (t : Micros) : Option Binary64 :=
  if t < s.start then none
  else if s.finish ≤ t ∨ s.finish = s.start then some .one
  else
    let elapsed := (t - s.start).count.toNat
    let length := (s.finish - s.start).count.toNat
    some (Binary64.ofNat elapsed / Binary64.ofNat length)

end Segment

/-- Why a trace cannot be replayed. -/
inductive ReplayError where
  /-- A call touches cells that are not shown. -/
  | outsideView (address size capacity : UInt32)
  /-- The progress asked for is no number. -/
  | progress (p : Binary64)
  /-- A note in the trace is refused. -/
  | invalid (e : Invalid)
  /-- The call has no address: it was never run. -/
  | unresolved (index : Nat)
  /-- The call releases an address that no allocation before it returned. -/
  | unmatched (index : Nat) (address : UInt32)
deriving DecidableEq, Repr

namespace ReplayError

def message : ReplayError → String
  | outsideView address size capacity =>
    s!"memory view: cells [{address}, {address}+{size}) exceed a view of {capacity} cells"
  | progress p => s!"progress must be a number in [0, 1], got {p.text}"
  | invalid e => "invalid trace: " ++ e.message
  | unresolved index => s!"call {index} has no resolved address; run the trace first"
  | unmatched index address =>
    s!"call {index} frees address {address} which is not allocated"

/-- The message of the cause of an error. -/
def cause? : ReplayError → Option String
  | outsideView address size capacity =>
    some s!"cells [{address}, {address}+{size}) exceed a view of {capacity} cells"
  | invalid e => some e.message
  | progress _ | unresolved _ | unmatched .. => none

end ReplayError

/-- The sizes of the blocks in use, by address. -/
abbrev BlockSizes := OrderedMap UInt32 UInt32

/-- The mutation of the call at an index, and the blocks in use after it. -/
def Call.mutation (index : Nat) (live : BlockSizes) (call : Call) :
    Except ReplayError (Mutation × BlockSizes) :=
  match call.op with
  | .malloc size _ color =>
    match call.result with
    | none => .error (.unresolved index)
    | some address =>
      .ok (.fill address size (color.getD Mutation.defaultColor), live.insert address size)
  | .free none _ => .error (.unresolved index)
  | .free (some address) _ =>
    match live.find? address with
    | none => .error (.unmatched index address)
    | some size => .ok (.clear address size, live.erase address)
  | .sleep => .ok (.idle, live)
  | .annotate note => .ok (.annotate note, live)

/-- The segments of calls, the first of which has the given index. -/
def segmentsFrom (index : Nat) (live : BlockSizes) : List Call → Except ReplayError (List Segment)
  | [] => .ok []
  | call :: rest => do
    let (mutation, live) ← call.mutation index live
    let segment : Segment := ⟨index, call.time, call.finish, mutation⟩
    pure (segment :: (← segmentsFrom (index + 1) live rest))

/-- The segments of a trace. -/
def Trace.segments (t : Trace) : Except ReplayError (List Segment) :=
  segmentsFrom 0 .empty t.calls

end Heapscope
