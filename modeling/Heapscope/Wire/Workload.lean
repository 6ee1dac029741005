import Heapscope.Wire.Scalar
import Heapscope.Workload.Schedule

/-!
# The wire form of workloads

A node is an object with the element name, the attributes as an object of strings, and the children
as an array; attributes and children are left out when there are none.  It may also be written as an
array of these three, of which the last two may be missing.
-/

namespace Heapscope

namespace Node

/-- The attributes of a node as an object. -/
def attributesJson (m : OrderedMap String String) : Json :=
  .record (m.entries.map fun e => (e.1, .text e.2))

mutual

def toJson : Node → Json
  | ⟨element, attributes, children⟩ =>
    .record <| [("element", .text element)]
      ++ (if attributes.isEmpty then [] else [("attributes", attributesJson attributes)])
      ++ (if children.isEmpty then [] else [("children", .array (listToJson children))])

def listToJson : List Node → List Json
  | [] => []
  | n :: rest => toJson n :: listToJson rest

end

/-- The text of a workload on one line. -/
def compact (nodes : List Node) : String := (Json.array (listToJson nodes)).compact

/-- Reads an object of strings; a repeated key replaces the value in place. -/
def readAttributes : Reader (OrderedMap String String)
  | depth, .object fields => do
    let _ ← Json.enter depth
    readFields (fun m key v => return m.insert key (← v.readString)) .empty fields
  | _, _ => .error .malformed

/-- The fields of a node read so far. -/
structure Slots where
  element : Option String := none
  attributes : Option (OrderedMap String String) := none
  children : Option (List Node) := none

/-- The node whose fields have been read. -/
def Slots.finish (s : Slots) : Except ReadError Node := do
  let element ← filled s.element
  pure ⟨element, s.attributes.getD .empty, s.children.getD []⟩

mutual

def ofJson : Nat → Json → Except ReadError Node
  | depth, .object fields => do
    let depth ← Json.enter depth
    (← ofFields depth {} fields).finish
  | depth, .array [element] => do
    let _ ← Json.enter depth
    pure ⟨← element.readString, .empty, []⟩
  | depth, .array [element, attributes] => do
    let depth ← Json.enter depth
    pure ⟨← element.readString, ← readAttributes depth attributes, []⟩
  | depth, .array [element, attributes, children] => do
    let depth ← Json.enter depth
    pure ⟨← element.readString, ← readAttributes depth attributes, ← ofChildren depth children⟩
  | _, _ => .error .malformed

/-- Reads an array of nodes. -/
def ofChildren : Nat → Json → Except ReadError (List Node)
  | depth, .array items => do
    let depth ← Json.enter depth
    ofItems depth items
  | _, _ => .error .malformed

/-- Reads nodes one after the other. -/
def ofItems : Nat → List Json → Except ReadError (List Node)
  | _, [] => .ok []
  | depth, v :: rest => do
    let n ← ofJson depth v
    pure (n :: (← ofItems depth rest))

/-- Reads the fields of a node one after the other. -/
def ofFields : Nat → Slots → List (Option String × Json) → Except ReadError Slots
  | _, s, [] => .ok s
  | depth, s, (key, v) :: rest => do
    let s ← match ← filled key with
      | "element" => pure { s with element := ← fill s.element v.readString }
      | "attributes" => pure { s with attributes := ← fill s.attributes (readAttributes depth v) }
      | "children" => pure { s with children := ← fill s.children (ofChildren depth v) }
      | _ => skip s v
    ofFields depth s rest

end

/-- Reads a workload: an array of nodes. -/
def listOfText (text : String) : Except ReadError (List Node) := Json.readText ofChildren text

/-- Why the text of a workload does not compile. -/
inductive Fault where
  | unreadable (e : ReadError)
  | invalid (e : CompileError)
deriving DecidableEq, Repr

/-- The calls of the text of a workload, sorted.  The text is read to its end before the settings are
looked at. -/
def compileText (config : CompilerConfig) (text : String) : Except Fault (List Call) := do
  let nodes ← (listOfText text).mapError .unreadable
  (compile config nodes).mapError .invalid

end Node

end Heapscope
