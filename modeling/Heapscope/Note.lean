import Heapscope.Color
import Heapscope.Invalid

/-!
# Notes

A note adds a mark to a span of memory, or removes the mark of its kind that is anchored at
its address.  Allocators emit them, and workloads may contain them.
-/

namespace Heapscope

/-- The four kinds of mark. -/
inductive Mark where
  /-- A translucent highlight over a span. -/
  | range
  /-- A label. -/
  | text
  /-- An arrow to another address. -/
  | pointer
  /-- A solid tint over a span. -/
  | color
deriving DecidableEq, Repr

/-- What a note does: it adds or removes a mark. -/
inductive NoteKind where
  | add (mark : Mark)
  | remove (mark : Mark)
deriving DecidableEq, Repr

namespace NoteKind

/-- The name of a kind in workloads and on the wire. -/
def name : NoteKind → String
  | add .range => "range"
  | add .text => "text"
  | add .pointer => "pointer"
  | add .color => "color"
  | remove .range => "removeRange"
  | remove .text => "removeText"
  | remove .pointer => "removePointer"
  | remove .color => "removeColor"

/-- Every kind. -/
def all : List NoteKind :=
  [add .range, add .text, add .pointer, add .color,
    remove .range, remove .text, remove .pointer, remove .color]

/-- The kind of a name. -/
def ofName? (s : String) : Option NoteKind := all.find? fun k => k.name == s

end NoteKind

/-- A change to the marks on memory. -/
structure Note where
  kind : NoteKind
  /-- The anchor. -/
  address : UInt32
  /-- The number of bytes of a highlight or a tint. -/
  size : Option UInt32
  /-- The end of an arrow. -/
  target : Option UInt32
  /-- The text of a label. -/
  text : Option String
  color : Option Color
  /-- The opacity of a highlight. -/
  alpha : Option Binary64
deriving DecidableEq, Repr

namespace Note

/-- A note with an anchor and nothing else. -/
def bare (kind : NoteKind) (address : UInt32) : Note :=
  ⟨kind, address, none, none, none, none, none⟩

/-- The number of bytes that a note covers; at least the anchor. -/
def extent (a : Note) : UInt32 := max (a.size.getD 1) 1

/-- The fault of a missing field. -/
def lacks (a : Note) (field : String) : Invalid := .incomplete a.kind.name field

/-- The fields that the kind of a note needs, each with its own rule. -/
def checkFields (a : Note) (capacity : UInt32) : Except Invalid Unit :=
  match a.kind with
  | .add .range =>
    match a.size with
    | none => .error (a.lacks "size")
    | some n => if n = 0 then .error (.size 0) else .ok ()
  | .add .text => if a.text.isNone then .error (a.lacks "text") else .ok ()
  | .add .pointer =>
    match a.target with
    | none => .error (a.lacks "target")
    | some t => checkSpan t 1 capacity
  | .add .color => if a.color.isNone then .error (a.lacks "color") else .ok ()
  | .remove _ => .ok ()

/-- An opacity, if there is one, lies in the unit interval. -/
def checkAlpha (a : Note) : Except Invalid Unit :=
  match a.alpha with
  | none => .ok ()
  | some x => if x.inUnit then .ok () else .error (.alpha x)

/-- The rules of a note in an address space: its fields, its opacity, its bytes. -/
def validate (a : Note) (capacity : UInt32) : Except Invalid Unit := do
  a.checkFields capacity
  a.checkAlpha
  checkSpan a.address a.extent capacity

end Note

end Heapscope
