import Heapscope.Call

/-!
# Allocators

A `Host` is an allocator as a run sees it: a state, and the replies to the calls made of it.
Nothing is assumed of the replies.  While it answers, an allocator may queue annotations and
messages; draining a queue hands over everything in it and leaves it empty.
-/

namespace Heapscope

/-- The two functions of an allocator. -/
inductive HostFunction where
  | malloc
  | free
deriving DecidableEq, Repr

def HostFunction.name : HostFunction → String
  | malloc => "malloc"
  | free => "free"

/-- Why an allocator gave no answer. -/
inductive HostError where
  /-- It has no such function. -/
  | missing (function : HostFunction)
  /-- Its code stopped. -/
  | trap (reason : String)
  /-- Its code misused what it was given to call. -/
  | fault (reason : String)
deriving DecidableEq, Repr

namespace HostError

def message : HostError → String
  | missing function => "allocator does not implement '" ++ function.name ++ "'"
  | trap reason => s!"allocator trapped: {reason}"
  | fault reason => s!"host binding fault: {reason}"

end HostError

/-- An allocator with states in `σ`. -/
structure Host (σ : Type) where
  /-- The size of the address space. -/
  capacity : UInt32
  /-- Tells on behalf of which thread the next calls are made. -/
  setThread : ThreadId → σ → σ
  /-- Allocates a number of bytes.  The address is what the allocator returned, valid or not. -/
  malloc : UInt32 → σ → Except HostError Int64 × σ
  /-- Releases the block at an address. -/
  free : UInt32 → σ → Except HostError Unit × σ
  /-- Takes the queued annotations. -/
  drainNotes : σ → List Note × σ
  /-- Takes the queued messages. -/
  drainLogs : σ → List LogEntry × σ

end Heapscope
