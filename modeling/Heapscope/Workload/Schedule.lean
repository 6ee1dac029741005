import Heapscope.Trace.Basic
import Heapscope.Workload.Item

/-!
# Putting a workload on the clock

Threads run side by side.  Each has a clock of its own that starts at the offset; an operation
starts at the clock of its thread and moves it on by its duration, or by the default interval.
Threads are numbered in the order of the document.  When the top level holds an operation, the top
level is thread 0.

* `schedule` -- the calls of a checked workload, thread by thread as they are met;
* `compile` -- checks, schedules and sorts.
-/

namespace Heapscope

/-- The times that a workload leaves open. -/
structure CompilerConfig where
  /-- The duration of an operation that has none. -/
  interval : Micros := ⟨500000⟩
  /-- When the threads start; positive, so that time zero belongs to what an allocator does while it
  is being set up. -/
  offset : Micros := ⟨1⟩
deriving DecidableEq, Repr

namespace CompilerConfig

def validate (config : CompilerConfig) : Except CompileError Unit :=
  if config.interval = .zero then .error .zeroInterval
  else if config.offset = .zero then .error .zeroOffset
  else .ok ()

end CompilerConfig

namespace Action

/-- The operation that a thread performs. -/
def op : Action → Op
  | malloc size pinned color _ => .malloc size pinned color
  | freeId _ => .free none none
  | freeAddress address => .free (some address) none
  | sleep => .sleep
  | annotate a => .annotate a

/-- The key of the block that is allocated or released, within a thread. -/
def key (thread : ThreadId) : Action → Option AllocationKey
  | malloc _ _ _ id => id.map (.inThread thread)
  | freeId id => some (.inThread thread id)
  | freeAddress address => some (.address address)
  | sleep | annotate _ => none

end Action

/-- The call of an operation. -/
def Step.call (s : Step) (config : CompilerConfig) (thread : Nat) (clock : Micros) : Call :=
  let thread := UInt32.ofNat thread
  ⟨s.action.op, s.action.key thread, none, thread, clock, s.duration.getD config.interval⟩

mutual

/-- The calls of an item inside the given thread at the given clock, with the clock afterwards and
the number for the next new thread. -/
def Item.schedule (config : CompilerConfig) (thread : Nat) (clock : Micros) (next : Nat) :
    Item → List Call × Micros × Nat
  | .step s =>
    let call := s.call config thread clock
    ([call], clock + call.duration, next)
  | .thread body =>
    let (calls, next) := Item.scheduleThread config next body
    (calls, clock, next)

/-- The calls of a new thread with the given number, and the number for the next one. -/
def Item.scheduleThread (config : CompilerConfig) (thread : Nat) (body : List Item) :
    List Call × Nat :=
  Item.scheduleAll config thread config.offset (thread + 1) body

/-- The calls of items one after the other inside a thread. -/
def Item.scheduleAll (config : CompilerConfig) (thread : Nat) (clock : Micros) (next : Nat) :
    List Item → List Call × Nat
  | [] => ([], next)
  | item :: rest =>
    let (calls, clock, next) := Item.schedule config thread clock next item
    let (more, next) := Item.scheduleAll config thread clock next rest
    (calls ++ more, next)

end

/-- Whether an item is a thread. -/
def Item.isThread : Item → Bool
  | .thread _ => true
  | .step _ => false

/-- The calls of a top level that holds threads only. -/
def scheduleThreads (config : CompilerConfig) (next : Nat) (items : List Item) : List Call :=
  (Item.scheduleAll config 0 config.offset next items).1

/-- The calls of a checked workload. -/
def schedule (config : CompilerConfig) (items : List Item) : List Call :=
  if items.all Item.isThread then scheduleThreads config 0 items
  else (Item.scheduleThread config 0 items).1

/-- The calls of a workload, sorted. -/
def compile (config : CompilerConfig) (nodes : List Node) : Except CompileError (List Call) := do
  config.validate
  let items ← Item.ofNodes nodes
  pure (sortCalls (schedule config items))

end Heapscope
