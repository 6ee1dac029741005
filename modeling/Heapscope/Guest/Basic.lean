import Heapscope.Guest.Code
import Heapscope.Host.Basic

/-!
# Guests

A guest is an allocator module: memory, code that runs when it is loaded, and the functions that it
exports.  Loading it gives a machine, and the machine is driven as a `Host`.

* `ModuleSource.load` -- a machine, or the stage at which loading failed;
* `Guest.enter` -- one call: the first misuse of a binding is reported before a trap, and a trap
  before the result;
* `Guest.host` -- the guest as an allocator.
-/

namespace Heapscope

/-- What a module has under a name that an allocator needs. -/
inductive Export (α : Type) where
  | absent
  | code (body : α)
  /-- A function of another type. -/
  | mistyped

/-- An allocator module. -/
structure Guest where
  /-- The size of its memory when it is loaded. -/
  pages : Nat := 1
  /-- Whether the bindings can reach its memory. -/
  sharesMemory : Bool := true
  /-- Bytes that its memory holds at first, by address. -/
  data : List (Nat × List UInt8) := []
  /-- What runs when it is loaded. -/
  start : Code Unit := .finish ()
  malloc : Export (Int32 → Code Int32) := .absent
  free : Export (Int32 → Code Unit) := .absent

/-- What a file that should hold an allocator module is found to be. -/
inductive ModuleSource where
  /-- No module. -/
  | unreadable
  /-- A module whose code is not well typed. -/
  | illTyped
  /-- A module that asks for more than the bindings. -/
  | unlinkable
  | guest (g : Guest)

/-- Why a module could not be set up. -/
inductive StartFailure where
  /-- Its memory is larger than the limit. -/
  | memory
  | trap (t : Trap)
  | misuse (f : Misuse)
deriving DecidableEq, Repr

/-- Why a module could not be loaded. -/
inductive LoadError where
  | options (e : BadOptions)
  | parse
  | compile
  | link
  | start (why : StartFailure)
  /-- A function has another type than it should. -/
  | exports
deriving DecidableEq, Repr

namespace LoadError

/-- The message of an error whose wording is fixed. -/
def message? : LoadError → Option String
  | options e => some e.message
  | start (.trap t) => some ("failed to load allocator (start): " ++ t.message)
  | start (.misuse f) => some ("failed to load allocator (start): " ++ f.message)
  | parse | compile | link | start .memory | exports => none

end LoadError

namespace Guest

/-- What a guest is loaded into. -/
def surroundings (g : Guest) (o : GuestOptions) : Surroundings := ⟨o, g.sharesMemory⟩

/-- The memory of a guest before its first instruction. -/
def memory? (g : Guest) : Option LinearMemory :=
  g.data.foldlM (fun m d => m.write? d.1 d.2) (.blank g.pages)

/-- Sets up a machine. -/
def boot (g : Guest) (o : GuestOptions) : Except StartFailure Machine :=
  if o.memoryLimit.toNat < g.pages * LinearMemory.pageSize then .error .memory
  else match g.memory? with
    | none => .error (.trap .outOfBounds)
    | some memory =>
      match g.start.run (g.surroundings o) { memory } with
      | (.error t, _) => .error (.trap t)
      | (.ok (), m) => m.fault.elim (.ok m) fun f => .error (.misuse f)

/-- Whether the functions have the types that they should have. -/
def wellTyped (g : Guest) : Bool :=
  match g.malloc, g.free with
  | .mistyped, _ | _, .mistyped => false
  | _, _ => true

/-- Loads a guest: a machine, or the first thing that is wrong. -/
def load (g : Guest) (o : GuestOptions) : Except LoadError Machine := do
  if LinearMemory.pageLimit < g.pages then throw .compile
  -- the code runs before the types of the exports are looked at
  let m ← (g.boot o).mapError .start
  if g.wellTyped then pure m else throw .exports

/-- Makes one call. -/
def enter {α : Type} (s : Surroundings) (code : Code α) (m : Machine) :
    Except HostError α × Machine :=
  -- a misuse in an earlier call does not count
  let (result, m) := code.run s { m with fault := none }
  match m.fault with
  | some f => (.error (.fault f.message), { m with fault := none })
  | none => (result.mapError fun t => .trap t.message, m)

/-- The greatest number that can be handed to a guest. -/
def wordLimit : UInt32 := 2147483647

/-- A guest as an allocator.  Blocks that are too large to ask for are refused without a call. -/
def host (g : Guest) (o : GuestOptions) : Host Machine where
  capacity := o.capacity
  setThread thread m := { m with thread }
  malloc size m :=
    match g.malloc with
    | .code body =>
      if wordLimit < size then (.ok (-1), m)
      else
        let (result, m) := enter (g.surroundings o) (body size.toInt32) m
        (result.map Int32.toInt64, m)
    | .absent | .mistyped => (.error (.missing .malloc), m)
  free address m :=
    match g.free with
    | .code body =>
      if wordLimit < address then
        (.error (.fault s!"address {address} does not fit the guest ABI"), m)
      else enter (g.surroundings o) (body address.toInt32) m
    | .absent | .mistyped => (.error (.missing .free), m)
  drainNotes m := (m.notes, { m with notes := [] })
  drainLogs m := (m.logs, { m with logs := [] })

end Guest

/-- Loads the module in a file: the guest and its machine, or the first thing that is wrong. -/
def ModuleSource.load (source : ModuleSource) (o : GuestOptions) :
    Except LoadError (Guest × Machine) := do
  o.validate.mapError .options
  match source with
  | .unreadable => throw .parse
  | .illTyped => throw .compile
  | .unlinkable => throw .link
  | .guest g => pure (g, ← g.load o)

end Heapscope
