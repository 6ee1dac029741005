import Heapscope.Host.Basic
import Heapscope.Memory.Occupancy

/-!
# Refused calls

Why a run stops.  A refusal may have a cause with a message of its own.
-/

namespace Heapscope

/-- Why a run stops. -/
inductive Refusal where
  /-- A value in the call, or an annotation that the allocator emitted, is refused. -/
  | invalid (e : Invalid)
  /-- The allocator handed out a byte that is in use. -/
  | overlap (address : UInt32)
  /-- A byte that is released is not in use. -/
  | notInUse (address : UInt32)
  /-- The allocator returned no block, or one that does not fit. -/
  | outOfMemory (size : UInt32) (returned : Int64) (capacity : UInt32)
  /-- The allocator has no such function. -/
  | missing (function : HostFunction)
  /-- No live block has the key. -/
  | unknownBlock (key : String)
  /-- The allocator gave no answer. -/
  | host (e : HostError)
  /-- There are no colors to give to blocks. -/
  | emptyPalette
deriving DecidableEq, Repr

namespace Refusal

/-- The refusal that follows from an allocator's lack of an answer. -/
def ofHost : HostError → Refusal
  | .missing function => .missing function
  | e => .host e

/-- The refusal of a span that cannot be taken into use or given back. -/
def ofOccupancy : OccupancyFault → Refusal
  | .inUse address => .overlap address
  | .unused address => .notInUse address
  | .outside address size capacity => .invalid (.outside (.ofNat address.toNat) size capacity)

/-- The message of the cause of a refusal. -/
def cause? : Refusal → Option String
  | invalid e => some e.message
  | host e => some e.message
  | emptyPalette => some "palette must contain at least one color"
  | overlap _ | notInUse _ | outOfMemory .. | missing _ | unknownBlock _ => none

def message : Refusal → String
  | invalid e => "validation: " ++ e.message
  | overlap address => s!"double allocation: byte {address} is already in use"
  | notInUse address => s!"double free: byte {address} is not allocated"
  | outOfMemory size returned capacity =>
    s!"out of memory: malloc({size}) returned {returned}"
      ++ if returned < 0 then "" else s!", which does not fit in {capacity} bytes"
  | missing function => (HostError.missing function).message
  | unknownBlock key => "no live allocation '" ++ key ++ "'"
  | host e => e.message
  | emptyPalette => "config: palette must contain at least one color"

end Refusal

end Heapscope
