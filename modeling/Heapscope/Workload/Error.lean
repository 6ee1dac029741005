import Heapscope.Workload.Node

/-!
# Faults of a workload

Everything that can be wrong with a workload or with the settings it is compiled with.
-/

namespace Heapscope

/-- Why an attribute value is refused. -/
inductive AttributeFault where
  | notWhole
  | zeroSize
  | notDuration
  | notColor
  | notOpacity
  | emptyId
  | unknownKind
deriving DecidableEq, Repr

namespace AttributeFault

def message : AttributeFault → String
  | notWhole => "expected an unsigned 32-bit integer"
  | zeroSize => "size must be at least 1"
  | notDuration => "expected a non-negative duration in ms"
  | notColor => "expected a color <= 0xffffff"
  | notOpacity => "expected a number in [0, 1]"
  | emptyId => "id must not be empty"
  | unknownKind => "unknown annotation type"

end AttributeFault

/-- Why a workload does not compile. -/
inductive CompileError where
  /-- The element name has no meaning. -/
  | unknownElement (name : String)
  /-- The element does not take the attribute. -/
  | unknownAttribute (element : Element) (name : String)
  /-- The element needs the attribute. -/
  | missingAttribute (element : Element) (name : String)
  /-- The value of the attribute is refused. -/
  | invalidAttribute (element : Element) (name value : String) (fault : AttributeFault)
  /-- A release names its block twice. -/
  | bothReferences
  /-- A release names no block. -/
  | noReference
  /-- An operation has children. -/
  | unexpectedChildren (element : Element)
  /-- Operations without a duration would take no time. -/
  | zeroInterval
  /-- Threads would start at time zero. -/
  | zeroOffset
deriving DecidableEq, Repr

namespace CompileError

def message : CompileError → String
  | unknownElement name => s!"unknown element <{name}>"
  | unknownAttribute element name =>
    "<" ++ element.name ++ "> does not accept attribute '" ++ name ++ "'"
  | missingAttribute element name =>
    "<" ++ element.name ++ "> requires attribute '" ++ name ++ "'"
  | invalidAttribute element name value fault =>
    "<" ++ element.name ++ " " ++ name ++ "=\"" ++ value ++ "\">: " ++ fault.message
  | bothReferences => "<free>: 'id' and 'addr' are mutually exclusive"
  | noReference => "<free>: exactly one of 'id' or 'addr' is required"
  | unexpectedChildren element => "<" ++ element.name ++ "> cannot contain child elements"
  | zeroInterval => "invalid compiler config: default_interval must be positive"
  | zeroOffset => "invalid compiler config: start_offset must be positive"

end CompileError

end Heapscope
