import Heapscope.Call
import Heapscope.Workload.Attribute

/-!
# Checked workloads

Checking turns each node into an *item*: a thread, or an operation with its arguments.  A node is
checked by itself (`Node.check`); its thread, its time and its neighbours play no part.  The first
fault in the order of the document is reported.
-/

namespace Heapscope

/-- An operation of a workload.  Names of blocks are local to the thread. -/
inductive Action where
  | malloc (size : UInt32) (pinned : Option UInt32) (color : Option Color) (id : Option String)
  | freeId (id : String)
  | freeAddress (address : UInt32)
  | sleep
  | annotate (a : Note)
deriving DecidableEq, Repr

/-- An operation and the time it takes, if the workload tells. -/
structure Step where
  action : Action
  duration : Option Micros
deriving DecidableEq, Repr

/-- A checked node. -/
inductive Item where
  | thread (body : List Item)
  | step (s : Step)

/-- What the check of a single node finds: a thread, whose children are still to be checked, or an
operation. -/
inductive Checked where
  | thread
  | step (s : Step)
deriving DecidableEq, Repr

namespace Attributes

/-- The arguments of an allocation. -/
def malloc (a : Attributes) : Except CompileError Action := do
  let size ← a.require "size" (← a.size? "size")
  let pinned ← a.number? "addr"
  let color ← a.color?
  let id ← a.id?
  pure (.malloc size pinned color id)

/-- The arguments of a release: a name or an address, and not both. -/
def free (a : Attributes) : Except CompileError Action := do
  let id ← a.id?
  let address ← a.number? "addr"
  match id, address with
  | some id, none => pure (.freeId id)
  | none, some address => pure (.freeAddress address)
  | some _, some _ => throw .bothReferences
  | none, none => throw .noReference

/-- The kind of a note, blanks around it ignored. -/
def kind (a : Attributes) : Except CompileError NoteKind := do
  let ofValue? := fun value => NoteKind.ofName? (String.ofList (trim value.toList))
  a.require "type" (← a.get? ofValue? .unknownKind "type")

/-- The attribute that a kind of note needs. -/
def needs : NoteKind → Option String
  | .add .range => some "size"
  | .add .text => some "text"
  | .add .pointer => some "target"
  | .add .color => some "color"
  | .remove _ => none

/-- The arguments of a note. -/
def note (a : Attributes) : Except CompileError Note := do
  let kind ← a.kind
  let address ← a.require "address" (← a.number? "address")
  let size ← a.size? "size"
  let target ← a.number? "target"
  let text := a.values.find? "text"
  let color ← a.color?
  let alpha ← a.opacity?
  match (needs kind).filter fun name => !a.values.contains name with
  | some name => throw (a.missing name)
  | none => pure ⟨kind, address, size, target, text, color, alpha⟩

end Attributes

namespace Node

/-- The check of a node by itself: its element, its attribute names, its lack of children, its
duration, its other attributes. -/
def check (n : Node) : Except CompileError Checked := do
  let some element := Element.ofName? n.element | throw (.unknownElement n.element)
  let a : Attributes := ⟨element, n.attributes⟩
  a.checkNames
  if element ≠ .thread ∧ n.children ≠ [] then throw (.unexpectedChildren element)
  let duration ← a.duration?
  match element with
  | .thread => pure .thread
  | .malloc => pure (.step ⟨← a.malloc, duration⟩)
  | .free => pure (.step ⟨← a.free, duration⟩)
  | .sleep => do
    let duration ← a.require "duration" duration
    pure (.step ⟨.sleep, some duration⟩)
  | .annotate => do
    let note ← a.note
    pure (.step ⟨.annotate note, duration⟩)

end Node

mutual

/-- Checks a node, then its children. -/
def Item.ofNode : Node → Except CompileError Item
  | n@⟨_, _, children⟩ => do
    match ← n.check with
    | .step s => pure (.step s)
    | .thread => pure (.thread (← Item.ofNodes children))

/-- Checks nodes one after the other. -/
def Item.ofNodes : List Node → Except CompileError (List Item)
  | [] => pure []
  | n :: rest => do
    let item ← Item.ofNode n
    pure (item :: (← Item.ofNodes rest))

end

end Heapscope
