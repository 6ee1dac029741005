import Heapscope.Note
import Heapscope.OrderedMap

/-!
# Workloads

A workload is a forest of nodes: an element name, attributes in the order in which they were first
written, and child nodes.  Attribute values stay texts until the workload is compiled, so that a
faulty value can be reported together with the place where it was written.
-/

namespace Heapscope

/-- One element of a workload. -/
structure Node where
  /-- The element name as written. -/
  element : String
  attributes : OrderedMap String String
  children : List Node

namespace Node

/-- An element without attributes and children. -/
def bare (element : String) : Node := ⟨element, .empty, []⟩

instance : Inhabited Node := ⟨bare ""⟩

/-- Sets an attribute, in place if it is present. -/
def attr (n : Node) (name value : String) : Node :=
  { n with attributes := n.attributes.insert name value }

/-- Adds a child at the end. -/
def child (n m : Node) : Node := { n with children := n.children ++ [m] }

/-- A thread of the given elements. -/
def thread (children : List Node) : Node := { bare "thread" with children := children }

/-- The allocation of `size` bytes. -/
def malloc (size : UInt32) : Node := (bare "malloc").attr "size" (toString size)

/-- The release of the block with a name. -/
def freeId (id : String) : Node := (bare "free").attr "id" id

/-- The release of the block at an address. -/
def freeAddress (address : UInt32) : Node := (bare "free").attr "addr" (toString address)

/-- A pause of `ms` milliseconds. -/
def sleep (ms : UInt64) : Node := (bare "sleep").attr "duration" (toString ms)

/-- A note at an address. -/
def annotate (kind : NoteKind) (address : UInt32) : Node :=
  ((bare "annotate").attr "type" kind.name).attr "address" (toString address)

end Node

/-- The element names that have a meaning. -/
inductive Element where
  | thread
  | malloc
  | free
  | sleep
  | annotate
deriving DecidableEq, Repr

namespace Element

def name : Element → String
  | thread => "thread"
  | malloc => "malloc"
  | free => "free"
  | sleep => "sleep"
  | annotate => "annotate"

def ofName? (s : String) : Option Element :=
  [thread, malloc, free, sleep, annotate].find? fun e => e.name == s

/-- The attributes that an element may have. -/
def attributes : Element → List String
  | thread => []
  | malloc => ["id", "size", "addr", "color", "duration"]
  | free => ["id", "addr", "duration"]
  | sleep => ["duration"]
  | annotate => ["type", "address", "target", "alpha", "size", "text", "color", "duration"]

end Element

end Heapscope
