import Heapscope.Guest.Memory
import Heapscope.OrderedMap

/-!
# Options of a guest

What a guest is loaded with: the size of the address space that it hands out, a budget, a limit on
its own memory, and settings that only the guest knows the meaning of.
-/

namespace Heapscope

/-- What a guest is loaded with. -/
structure GuestOptions where
  /-- The size of the address space that the guest hands out. -/
  capacity : UInt32 := 256
  debug : Bool := false
  /-- How much work one call may take; none for no bound. -/
  fuel : Option UInt64 := none
  /-- The greatest size of the guest's own memory in bytes. -/
  memoryLimit : UInt64 := 16777216
  /-- Settings of the guest's own. -/
  extra : OrderedMap String String := .empty
deriving DecidableEq

/-- Why options are refused. -/
inductive BadOptions where
  | noCapacity
  /-- Addresses reach the guest as signed 32-bit words. -/
  | capacity (value : UInt32)
  | noFuel
  /-- The limit is below one page. -/
  | memoryLimit
deriving DecidableEq, Repr

namespace BadOptions

/-- The greatest capacity. -/
def capacityLimit : UInt32 := 2147483647

def message : BadOptions → String
  | noCapacity => "invalid sandbox options: capacity must be at least 1 byte"
  | capacity value => s!"invalid sandbox options: capacity {value} exceeds {capacityLimit}"
  | noFuel => "invalid sandbox options: fuel budget must be positive"
  | memoryLimit => "invalid sandbox options: memory_limit must be at least one page "
      ++ s!"({LinearMemory.pageSize} bytes)"

end BadOptions

namespace GuestOptions

/-- The rules of options, in the order in which they are checked. -/
def validate (o : GuestOptions) : Except BadOptions Unit :=
  if o.capacity = 0 then .error .noCapacity
  else if BadOptions.capacityLimit < o.capacity then .error (.capacity o.capacity)
  else if o.fuel = some 0 then .error .noFuel
  else if o.memoryLimit.toNat < LinearMemory.pageSize then .error .memoryLimit
  else .ok ()

end GuestOptions

end Heapscope
