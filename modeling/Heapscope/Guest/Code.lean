import Heapscope.Guest.Binding

/-!
# Guest code

What a guest does, as a tree: at each node it asks for something, and the answer selects how it goes
on.  Every branch is finite, and ends with a result or a trap.

* `Code.run` -- runs code on a machine: the result or the trap, and the machine afterwards.  What
  was done before a trap stays done.
-/

namespace Heapscope

/-- Why code stops without a result. -/
inductive Trap where
  | unreachable
  | outOfBounds
  | divideByZero
  /-- The budget of the call is used up. -/
  | outOfFuel
deriving DecidableEq, Repr

def Trap.message : Trap → String
  | unreachable => "wasm trap: wasm `unreachable` instruction executed"
  | outOfBounds => "wasm trap: out of bounds memory access"
  | divideByZero => "wasm trap: integer divide by zero"
  | outOfFuel => "fuel budget exhausted"

/-- What a guest does. -/
inductive Code (α : Type) where
  | finish (result : α)
  | trap (reason : Trap)
  /-- Calls a binding. -/
  | call (b : Binding) (next : Int32 → Code α)
  /-- Reads the bytes of a span. -/
  | load (address count : Nat) (next : List UInt8 → Code α)
  /-- Puts bytes from an address on. -/
  | store (address : Nat) (bytes : List UInt8) (next : Unit → Code α)
  /-- Puts one value into every byte of a span. -/
  | fill (address count : Nat) (value : UInt8) (next : Unit → Code α)
  /-- Adds pages: the number of pages before, or -1 when that is refused. -/
  | grow (pages : Nat) (next : Int32 → Code α)
  /-- Reads a global variable. -/
  | get (index : Nat) (next : Int32 → Code α)
  /-- Writes a global variable. -/
  | set (index : Nat) (value : Int32) (next : Unit → Code α)

namespace Code

variable {α β : Type}

/-- Goes on with what the result selects. -/
def bind : Code α → (α → Code β) → Code β
  | finish a, f => f a
  | trap t, _ => trap t
  | call b next, f => call b fun r => (next r).bind f
  | load address count next, f => load address count fun r => (next r).bind f
  | store address bytes next, f => store address bytes fun r => (next r).bind f
  | fill address count value next, f => fill address count value fun r => (next r).bind f
  | grow pages next, f => grow pages fun r => (next r).bind f
  | get x next, f => get x fun r => (next r).bind f
  | set x value next, f => set x value fun r => (next r).bind f

instance : Monad Code where
  pure := finish
  bind := bind

/-- A loop that is never left: the budget ends it. -/
def spin : Code α := trap .outOfFuel

/-- Calls a binding for its reply. -/
def ask (b : Binding) : Code Int32 := call b finish

/-- Calls a binding that does not reply. -/
def tell (b : Binding) : Code Unit := call b fun _ => finish ()

def readByte (address : UInt32) : Code UInt8 :=
  load address.toNat 1 fun bytes => finish (bytes.headD 0)

def readWord (address : UInt32) : Code UInt32 :=
  load address.toNat 4 fun bytes => finish (wordOfBytes bytes)

def writeByte (address : UInt32) (b : UInt8) : Code Unit := store address.toNat [b] finish

def writeWord (address w : UInt32) : Code Unit := store address.toNat (bytesOfWord w) finish

def fillSpan (address count : UInt32) (value : UInt8) : Code Unit :=
  fill address.toNat count.toNat value finish

def addPages (pages : Int32) : Code Int32 := grow pages.toUInt32.toNat finish

def readGlobal (index : Nat) : Code Int32 := get index finish

def writeGlobal (index : Nat) (value : Int32) : Code Unit := set index value finish

/-- Runs code on a machine. -/
def run (s : Surroundings) : Code α → Machine → Except Trap α × Machine
  | finish a, m => (.ok a, m)
  | trap t, m => (.error t, m)
  | call b next, m =>
    let (reply, m) := b.perform s m
    (next reply).run s m
  | load address count next, m =>
    match m.memory.read? address count with
    | none => (.error .outOfBounds, m)
    | some bytes => (next bytes).run s m
  | store address bytes next, m =>
    match m.memory.write? address bytes with
    | none => (.error .outOfBounds, m)
    | some memory => (next ()).run s { m with memory }
  | fill address count value next, m =>
    match m.memory.fill? address count value with
    | none => (.error .outOfBounds, m)
    | some memory => (next ()).run s { m with memory }
  | grow pages next, m =>
    match m.memory.grow? s.options.memoryLimit.toNat pages with
    | none => (next (-1)).run s m
    | some memory => (next (Int32.ofNat m.memory.pages)).run s { m with memory }
  | get x next, m => (next (m.globals x)).run s m
  | set x value next, m =>
    (next ()).run s { m with globals := fun y => if y = x then value else m.globals y }

end Code

end Heapscope
