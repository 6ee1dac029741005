import Heapscope.Call
import Heapscope.Guest.Options

/-!
# Bindings

The functions that a guest may call while it runs.  Numbers cross the boundary as signed 32-bit
words; addresses and sizes of notes are taken as unsigned ones.  A binding that is misused queues
nothing and is a fault; of several faults in one call the first is kept.

* `Binding.perform` -- the effect of a binding, and its reply.
-/

namespace Heapscope

/-- What a guest asks for. -/
inductive Binding where
  /-- The size of the address space. -/
  | totalMemory
  /-- The thread on behalf of which the guest runs. -/
  | threadId
  | isDebug
  /-- The length of a setting; -1 when there is none of the name. -/
  | optionLength (name length : Int32)
  /-- Copies a setting into memory, as far as there is room: how many bytes were copied. -/
  | readOption (name length target room : Int32)
  | annotateRange (address size color : Int32) (alpha : Binary64)
  | annotateText (address text length : Int32)
  | annotatePointer (address target : Int32)
  | annotateColor (address size color : Int32)
  | remove (mark : Mark) (address : Int32)
  | log (level : LogLevel) (text length : Int32)
deriving DecidableEq, Repr

/-- How a binding was misused. -/
inductive Misuse where
  /-- The number is no color. -/
  | color (binding : String) (value : Int32)
  /-- The span does not lie in memory. -/
  | unreadable (binding : String) (address length : Int32)
  /-- The bytes are no text. -/
  | notText (binding : String) (address : Int32)
  /-- The bytes do not fit into memory. -/
  | unwritable (binding : String) (address : Int32) (length : Nat)
deriving DecidableEq, Repr

def Misuse.message : Misuse → String
  | color binding value => s!"{binding}: invalid color {value}"
  | unreadable binding address length =>
    s!"{binding}: cannot read {length} bytes at {address} from guest memory"
  | notText binding address => s!"{binding}: string at {address} is not valid UTF-8"
  | unwritable binding address length =>
    s!"{binding}: cannot write {length} bytes at {address} to guest memory"

/-- The state of a loaded guest. -/
structure Machine where
  thread : ThreadId := 0
  memory : LinearMemory
  /-- The guest's own variables. -/
  globals : Nat → Int32 := fun _ => 0
  /-- The queued notes, oldest first. -/
  notes : List Note := []
  /-- The queued messages, oldest first. -/
  logs : List LogEntry := []
  /-- The first misuse of a binding during the call. -/
  fault : Option Misuse := none

namespace Machine

/-- Keeps a misuse if it is the first. -/
def misused (m : Machine) (f : Misuse) : Machine := { m with fault := m.fault.or (some f) }

end Machine

/-- What a guest is loaded into: the options, and whether it shows its memory to the bindings. -/
structure Surroundings where
  options : GuestOptions
  sharesMemory : Bool

/-- An address or a length that is not negative. -/
def natural? (n : Int32) : Option Nat := if n < 0 then none else some n.toNatClampNeg

namespace Surroundings

/-- The bytes of a span of the guest's memory. -/
def bytes? (s : Surroundings) (m : Machine) (address length : Int32) : Option (List UInt8) := do
  let address ← natural? address
  let length ← natural? length
  if s.sharesMemory then m.memory.read? address length else none

/-- The text in a span of the guest's memory. -/
def text (s : Surroundings) (m : Machine) (binding : String) (address length : Int32) :
    Except Misuse String :=
  match s.bytes? m address length with
  | none => .error (.unreadable binding address length)
  | some bytes => (String.fromUTF8? ⟨bytes.toArray⟩).elim (.error (.notText binding address)) .ok

/-- The memory of the guest with bytes put into it. -/
def write? (s : Surroundings) (m : Machine) (address : Int32) (bytes : List UInt8) :
    Option LinearMemory := do
  let address ← natural? address
  if s.sharesMemory then m.memory.write? address bytes else none

end Surroundings

/-- The bytes of a text. -/
def bytesOfText (s : String) : List UInt8 := s.toUTF8.data.toList

/-- The color of a number; negative ones have none. -/
def colorOf (binding : String) (value : Int32) : Except Misuse Color :=
  ((natural? value).bind fun n => Color.ofNumber? (.ofNat n)).elim
    (.error (.color binding value)) .ok

namespace Binding

def name : Binding → String
  | totalMemory => "getTotalMemory"
  | threadId => "getThreadId"
  | isDebug => "isDebug"
  | optionLength .. => "optionLength"
  | readOption .. => "readOption"
  | annotateRange .. => "annotateRange"
  | annotateText .. => "annotateText"
  | annotatePointer .. => "annotatePointer"
  | annotateColor .. => "annotateColor"
  | remove .range _ => "removeRange"
  | remove .text _ => "removeText"
  | remove .pointer _ => "removePointer"
  | remove .color _ => "removeColor"
  | log .info _ _ => "logInfo"
  | log .warn _ _ => "logWarn"
  | log .error _ _ => "logError"

/-- Whether the guest gets a reply. -/
def replies : Binding → Bool
  | totalMemory | threadId | isDebug | optionLength .. | readOption .. => true
  | _ => false

/-- The note that a binding asks for, if it asks for one and is not misused. -/
def note? (s : Surroundings) (m : Machine) (b : Binding) : Except Misuse (Option Note) :=
  match b with
  | annotateRange address size color alpha => do
    let color ← colorOf b.name color
    pure (some { Note.bare (.add .range) address.toUInt32 with
      size := some size.toUInt32, color := some color, alpha := some alpha })
  | annotateText address text length => do
    let text ← s.text m b.name text length
    pure (some { Note.bare (.add .text) address.toUInt32 with text := some text })
  | annotatePointer address target =>
    .ok (some { Note.bare (.add .pointer) address.toUInt32 with target := some target.toUInt32 })
  | annotateColor address size color => do
    let color ← colorOf b.name color
    pure (some { Note.bare (.add .color) address.toUInt32 with
      size := some size.toUInt32, color := some color })
  | remove mark address => .ok (some (Note.bare (.remove mark) address.toUInt32))
  | _ => .ok none

/-- The message that a binding asks for, if it asks for one and is not misused. -/
def log? (s : Surroundings) (m : Machine) (b : Binding) : Except Misuse (Option LogEntry) :=
  match b with
  | log level text length => do
    let text ← s.text m b.name text length
    pure (some ⟨level, text⟩)
  | _ => .ok none

/-- The setting that a binding asks for. -/
def setting? (s : Surroundings) (m : Machine) (b : Binding) (name length : Int32) :
    Except Misuse (Option (List UInt8)) :=
  (s.text m b.name name length).map fun key => (s.options.extra.find? key).map bytesOfText

/-- The reply of a binding, and the memory after it. -/
def reply (s : Surroundings) (m : Machine) (b : Binding) : Except Misuse (Int32 × LinearMemory) :=
  match b with
  | totalMemory => .ok (s.options.capacity.toInt32, m.memory)
  | threadId => .ok (m.thread.toInt32, m.memory)
  | isDebug => .ok (if s.options.debug then 1 else 0, m.memory)
  | optionLength name length => do
    let value ← b.setting? s m name length
    pure (value.elim (-1) fun v => Int32.ofNat v.length, m.memory)
  | readOption name length target room => do
    match ← b.setting? s m name length with
    | none => pure (-1, m.memory)
    | some value =>
      let value := value.take ((natural? room).getD 0)
      match s.write? m target value with
      | none => throw (.unwritable b.name target value.length)
      | some memory => pure (Int32.ofNat value.length, memory)
  | _ => .ok (0, m.memory)

/-- Does what a guest asks for: the reply, and the state afterwards.  A misuse is replied to by
-1. -/
def perform (s : Surroundings) (m : Machine) (b : Binding) : Int32 × Machine :=
  let effect := do
    let note ← b.note? s m
    let entry ← b.log? s m
    let (reply, memory) ← b.reply s m
    pure (reply, { m with
      notes := m.notes ++ note.toList, logs := m.logs ++ entry.toList, memory })
  match effect with
  | .ok done => done
  | .error f => (-1, m.misused f)

end Binding

end Heapscope
