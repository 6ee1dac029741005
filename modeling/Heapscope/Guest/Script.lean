import Heapscope.Guest.Basic

/-!
# Scripted guests

A scripted guest follows a list of instructions in each call: the first call of a function the first
list, and so on; the last list serves for all further calls.  Instructions work on one register,
which is zero at first and is what an allocation returns.
-/

namespace Heapscope

/-- One step of a script. -/
inductive Instruction where
  /-- Calls a binding; a reply goes into the register. -/
  | call (b : Binding)
  | const (n : Int32)
  /-- Takes the argument of the call. -/
  | argument
  /-- Takes the byte at an address. -/
  | load (address : UInt32)
  | store (address : UInt32) (value : UInt8)
  /-- Adds pages to memory. -/
  | grow (pages : Int32)
  | trap
  /-- A loop that is never left. -/
  | spin
  /-- Ends the call. -/
  | stop
deriving DecidableEq, Repr

namespace Instruction

/-- The code of instructions, for an argument and a content of the register. -/
def code (argument register : Int32) : List Instruction → Code Int32
  | [] => .finish register
  | .call b :: rest => do
    let reply ← Code.ask b
    code argument (if b.replies then reply else register) rest
  | .const n :: rest => code argument n rest
  | .argument :: rest => code argument argument rest
  | .load address :: rest => do
    let b ← Code.readByte address
    code argument b.toUInt32.toInt32 rest
  | .store address value :: rest => do
    Code.writeByte address value
    code argument register rest
  | .grow pages :: rest => do
    let before ← Code.addPages pages
    code argument before rest
  | .trap :: _ => .trap .unreachable
  | .spin :: _ => .spin
  | .stop :: _ => .finish register

end Instruction

/-- Counts a call in a global variable and follows the list that it is up to. -/
def scriptCode (counter : Nat) (lists : List (List Instruction)) (argument : Int32) :
    Code Int32 := do
  let count ← Code.readGlobal counter
  Code.writeGlobal counter (count + 1)
  let index := min count.toNatClampNeg (lists.length - 1)
  Instruction.code argument 0 (lists.getD index [])

/-- A function of a script: nothing, lists of instructions, or a function of some type that traps
at once. -/
inductive ScriptFunction where
  | absent
  | lists (l : List (List Instruction))
  | trapping
  | mistyped

/-- A guest that follows a script. -/
structure Script where
  pages : Nat := 1
  sharesMemory : Bool := true
  data : List (Nat × List UInt8) := []
  start : List Instruction := []
  malloc : ScriptFunction := .absent
  free : ScriptFunction := .absent

namespace ScriptFunction

/-- The code of a function whose calls are counted in a global variable. -/
def toExport (f : ScriptFunction) (counter : Nat) : Export (Int32 → Code Int32) :=
  match f with
  | absent => .absent
  | lists l => .code (scriptCode counter l)
  | trapping => .code fun _ => .trap .unreachable
  | mistyped => .mistyped

end ScriptFunction

/-- A function whose result is dropped. -/
def Export.dropResult : Export (Int32 → Code Int32) → Export (Int32 → Code Unit)
  | absent => .absent
  | code body => .code fun n => (body n).bind fun _ => .finish ()
  | mistyped => .mistyped

/-- The guest that follows a script. -/
def Script.guest (s : Script) : Guest where
  pages := s.pages
  sharesMemory := s.sharesMemory
  data := s.data
  start := (Instruction.code 0 0 s.start).bind fun _ => .finish ()
  malloc := s.malloc.toExport 0
  free := (s.free.toExport 1).dropResult

end Heapscope
