import Heapscope.Guest.Options
import Heapscope.Wire.Scalar

/-!
# The wire form of guest options

Options are one flat object: the known fields under their names, and every other field a setting of
the guest's own, which must be a string.
-/

namespace Heapscope

namespace GuestOptions

def toJson (o : GuestOptions) : Json :=
  .record <| [("capacity", .nat o.capacity.toNat), ("debug", .boolean o.debug)]
    ++ Json.field? "fuel" (fun n => .nat n.toNat) o.fuel
    ++ [("memoryLimit", .nat o.memoryLimit.toNat)]
    ++ o.extra.entries.map fun e => (e.1, .text e.2)

/-- The fields of options read so far, and those held back as settings. -/
structure Slots where
  capacity : Option UInt32 := none
  debug : Option Bool := none
  fuel : Option (Option UInt64) := none
  memoryLimit : Option UInt64 := none
  held : List (String × Json) := []

namespace Slots

/-- Reads one field. -/
def read (depth : Nat) (s : Slots) (key : String) (v : Json) : Except ReadError Slots := do
  match key with
  | "capacity" => pure { s with capacity := ← fill s.capacity v.readUInt32 }
  | "debug" => pure { s with debug := ← fill s.debug v.readBoolean }
  | "fuel" => pure { s with fuel := ← fill s.fuel (v.readOption Json.readUInt64) }
  | "memoryLimit" => pure { s with memoryLimit := ← fill s.memoryLimit v.readUInt64 }
  | _ => if v.strict depth then pure { s with held := s.held ++ [(key, v)] } else throw .malformed

/-- The options whose fields have been read; a repeated setting replaces the value in place. -/
def finish (s : Slots) : Except ReadError GuestOptions := do
  let settings ← s.held.mapM fun e => return (e.1, ← e.2.readString)
  let default : GuestOptions := {}
  pure {
    capacity := s.capacity.getD default.capacity
    debug := s.debug.getD default.debug
    fuel := s.fuel.join
    memoryLimit := s.memoryLimit.getD default.memoryLimit
    extra := .ofList settings }

end Slots

def ofJson : Reader GuestOptions
  | depth, .object fields => do
    let depth ← Json.enter depth
    (← readFields (Slots.read depth) {} fields).finish
  | _, _ => .error .malformed

end GuestOptions

end Heapscope
