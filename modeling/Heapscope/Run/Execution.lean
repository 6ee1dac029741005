import Heapscope.Memory.Occupancy
import Heapscope.OrderedMap
import Heapscope.Run.Palette
import Heapscope.Run.Refusal
import Heapscope.Trace.Basic

/-!
# Running calls against an allocator

A run makes the calls of a workload one by one.  Each block that the allocator hands out is checked
against the bytes in use and the keys of live blocks; each call is completed with what happened; and
what the allocator queued is collected after each call.  The first refusal ends the run.

* `Heap.malloc`, `Heap.free` -- one allocation and one release;
* `Heap.step` -- one call, with the annotations and messages that belong to it;
* `run` -- a whole workload.  Its trace is the annotations queued during setup, then each call
  followed by the annotations it led to.
-/

namespace Heapscope

/-- A block in use. -/
structure Block where
  address : UInt32
  size : UInt32
  color : Color
  /-- Whether the block was placed without asking the allocator. -/
  pinned : Bool
deriving DecidableEq, Repr

/-- A message, and the call that led to it; none for messages from before the first call. -/
structure LogRecord where
  callIndex : Option Nat
  time : Micros
  thread : ThreadId
  entry : LogEntry
deriving DecidableEq, Repr

/-- Memory during a run. -/
structure Heap (σ : Type) where
  /-- The state of the allocator. -/
  host : σ
  /-- The bytes in use. -/
  bytes : Occupancy
  /-- The blocks in use, oldest first. -/
  live : OrderedMap AllocationKey Block
  /-- How many blocks took their color from the palette. -/
  uncolored : Nat

/-- The sum of two 64-bit integers, or the end of the range that it goes beyond. -/
def saturatingAdd (a b : Int64) : Int64 :=
  Int64.ofInt (max Int64.minValue.toInt (min Int64.maxValue.toInt (a.toInt + b.toInt)))

/-- The address in an allocator's reply; the block must fit the address space. -/
def acceptReturned (size : UInt32) (returned : Int64) (capacity : UInt32) :
    Except Refusal UInt32 :=
  let last := saturatingAdd returned (Int64.ofNat size.toNat)
  if Int64.ofNat capacity.toNat < last ∨ returned < 0 then
    .error (.outOfMemory size returned capacity)
  else .ok (UInt32.ofNat returned.toNatClampNeg)

namespace Heap

variable {σ : Type}

/-- The address of a new block: the pinned one if it is in range, else the allocator's. -/
def place (h : Host σ) (size : UInt32) (pinned : Option UInt32) (host : σ) :
    Except Refusal UInt32 × σ :=
  match pinned with
  | some address =>
    match checkSpan address size h.capacity with
    | .ok () => (.ok address, host)
    | .error e => (.error (.invalid e), host)
  | none =>
    match h.malloc size host with
    | (.ok returned, host) => (acceptReturned size returned h.capacity, host)
    | (.error e, host) => (.error (.ofHost e), host)

/-- Takes a span into use as a block: its key must name no live block, and its bytes must be
free. -/
def claim (palette : Palette) (heap : Heap σ) (address size : UInt32) (pinned : Bool)
    (color : Option Color) (id : Option AllocationKey) :
    Except Refusal (AllocationKey × Block × Heap σ) :=
  let key := id.getD (.address address)
  -- the key is looked at before the bytes
  if heap.live.contains key then .error (.invalid (.duplicateKey key.text))
  else match heap.bytes.mark address size with
    | .error fault => .error (.ofOccupancy fault)
    | .ok bytes =>
      let block : Block := ⟨address, size, color.getD (palette.color heap.uncolored), pinned⟩
      let uncolored := if color.isNone then heap.uncolored + 1 else heap.uncolored
      .ok (key, block, { heap with bytes, live := heap.live.insert key block, uncolored })

/-- Allocates a block. -/
def malloc (h : Host σ) (palette : Palette) (heap : Heap σ) (size : UInt32)
    (pinned : Option UInt32) (color : Option Color) (id : Option AllocationKey) :
    Except Refusal (AllocationKey × Block) × Heap σ :=
  if size = 0 then (.error (.invalid (.size 0)), heap)
  else match place h size pinned heap.host with
    | (.error e, host) => (.error e, { heap with host })
    | (.ok address, host) =>
      let heap := { heap with host }
      match claim palette heap address size pinned.isSome color id with
      | .error e => (.error e, heap)
      | .ok (key, block, heap) => (.ok (key, block), heap)

/-- Releases the block with a key; the allocator is told unless the block was pinned. -/
def free (h : Host σ) (heap : Heap σ) (key : AllocationKey) : Except Refusal Block × Heap σ :=
  match heap.live.find? key with
  | none => (.error (.unknownBlock key.text), heap)
  | some block =>
    match heap.bytes.clear block.address block.size with
    | .error fault => (.error (.ofOccupancy fault), heap)
    | .ok bytes =>
      let (reply, host) :=
        if block.pinned then (.ok (), heap.host) else h.free block.address heap.host
      match reply with
      | .error e => (.error (.ofHost e), { heap with host })
      | .ok () => (.ok block, { heap with host, bytes, live := heap.live.erase key })

/-- Performs a call, and completes it with the key, the address and the color of its block. -/
def apply (h : Host σ) (palette : Palette) (heap : Heap σ) (call : Call) :
    Except Refusal Call × Heap σ :=
  match call.op with
  | .malloc size pinned color =>
    match heap.malloc h palette size pinned color call.id with
    | (.error e, heap) => (.error e, heap)
    | (.ok (key, block), heap) =>
      let op := .malloc size pinned (some block.color)
      (.ok { call with op, id := some key, result := some block.address }, heap)
  | .free address color =>
    match call.id.or (address.map .address) with
    | none => (.error (.unknownBlock "<unnamed>"), heap)
    | some key =>
      match heap.free h key with
      | (.error e, heap) => (.error e, heap)
      | (.ok block, heap) =>
        let op := .free (some block.address) (some (color.getD block.color))
        (.ok { call with op, id := some key }, heap)
  | .sleep => (.ok call, heap)
  | .annotate note =>
    match note.validate h.capacity with
    | .ok () => (.ok call, heap)
    | .error e => (.error (.invalid e), heap)

end Heap

/-- What came of some calls: memory afterwards, the messages, and the calls of the trace or the
first refusal with the index of the call that was refused. -/
structure Outcome (σ : Type) where
  heap : Heap σ
  logs : List LogRecord
  result : Except (Option Nat × Refusal) (List Call)

/-- The place in a run that queued annotations and messages are ascribed to. -/
structure Origin where
  callIndex : Option Nat
  thread : ThreadId
  time : Micros
  duration : Micros
deriving DecidableEq, Repr

namespace Origin

/-- Before the first call. -/
def setup : Origin := ⟨none, 0, .zero, .zero⟩

/-- The call at an index. -/
def ofCall (index : Nat) (call : Call) : Origin :=
  ⟨some index, call.thread, call.time, call.duration⟩

def record (o : Origin) (entry : LogEntry) : LogRecord := ⟨o.callIndex, o.time, o.thread, entry⟩

/-- The call that stands for an annotation of the allocator. -/
def noteCall (o : Origin) (note : Note) : Call :=
  ⟨.annotate note, none, none, o.thread, o.time, o.duration⟩

end Origin

namespace Heap

variable {σ : Type}

/-- The calls that stand for annotations, each of which must be valid. -/
def noteCalls (capacity : UInt32) (o : Origin) (notes : List Note) :
    Except Invalid (List Call) :=
  notes.mapM fun note => (note.validate capacity).map fun _ => o.noteCall note

/-- Collects the queued messages and, after a call that was not refused, the queued annotations. -/
def collect (h : Host σ) (o : Origin) (heap : Heap σ) (applied : Except Refusal (List Call)) :
    Outcome σ :=
  -- messages are collected in any case, annotations only after a success
  let (logs, host) := h.drainLogs heap.host
  let records := logs.map o.record
  match applied with
  | .error e => ⟨{ heap with host }, records, .error (o.callIndex, e)⟩
  | .ok calls =>
    let (notes, host) := h.drainNotes host
    let heap := { heap with host }
    match noteCalls h.capacity o notes with
    | .error e => ⟨heap, records, .error (o.callIndex, .invalid e)⟩
    | .ok more => ⟨heap, records, .ok (calls ++ more)⟩

/-- Makes one call, and collects what the allocator queued. -/
def step (h : Host σ) (palette : Palette) (heap : Heap σ) (index : Nat) (call : Call) :
    Outcome σ :=
  let heap := { heap with host := h.setThread call.thread heap.host }
  let (applied, heap) := heap.apply h palette call
  heap.collect h (.ofCall index call) (applied.map fun c => [c])

/-- Makes calls one after the other, the first of which has the given index. -/
def steps (h : Host σ) (palette : Palette) (heap : Heap σ) (index : Nat) :
    List Call → Outcome σ
  | [] => ⟨heap, [], .ok []⟩
  | call :: rest =>
    let first := heap.step h palette index call
    match first.result with
    | .error e => ⟨first.heap, first.logs, .error e⟩
    | .ok calls =>
      let more := first.heap.steps h palette (index + 1) rest
      ⟨more.heap, first.logs ++ more.logs, more.result.map (calls ++ ·)⟩

/-- Memory before a run. -/
def start (h : Host σ) (host : σ) : Heap σ := ⟨host, .empty h.capacity, .empty, 0⟩

end Heap

/-! ## Whole runs -/

/-- What a run shows when no call is refused. -/
structure Run where
  trace : Trace
  logs : List LogRecord
  /-- The greatest byte that was ever in use. -/
  peak : Option UInt32
  /-- The number of bytes in use at the end. -/
  occupied : Nat
  /-- The blocks in use at the end, oldest first. -/
  live : OrderedMap AllocationKey Block

/-- What a run shows when a call is refused. -/
structure RunFailure where
  refusal : Refusal
  /-- The index of the call; none when the run failed before the first call. -/
  callIndex : Option Nat
  /-- The messages up to the failure. -/
  logs : List LogRecord

namespace RunFailure

def message (e : RunFailure) : String :=
  match e.callIndex with
  | some index => s!"call {index}: {e.refusal.message}"
  | none => "setup: " ++ e.refusal.message

/-- The messages of what led to the failure, nearest first. -/
def chain (e : RunFailure) : List String := e.refusal.message :: e.refusal.cause?.toList

end RunFailure

namespace Run

/-- How many calls, allocations, releases, annotations and messages there were. -/
def counts (r : Run) : List Nat :=
  [r.trace.calls.length, r.trace.count "malloc", r.trace.count "free", r.trace.count "annotate",
    r.logs.length]

end Run

/-- The result of a run whose calls have been made. -/
def Outcome.finish {σ : Type} (o : Outcome σ) : Except RunFailure Run :=
  match o.result with
  | .error (index, e) => .error ⟨e, index, o.logs⟩
  | .ok calls =>
    match Trace.ofCalls? calls with
    | .error e => .error ⟨.invalid e, none, o.logs⟩
    | .ok trace => .ok ⟨trace, o.logs, o.heap.bytes.peak, o.heap.bytes.occupied, o.heap.live⟩

/-- Makes the calls of a sorted list after the setup. -/
def runCalls {σ : Type} (h : Host σ) (palette : Palette) (host : σ) (calls : List Call) :
    Outcome σ :=
  let setup := (Heap.start h host).collect h .setup (.ok [])
  match setup.result with
  | .error e => ⟨setup.heap, setup.logs, .error e⟩
  | .ok notes =>
    -- what the allocator queued comes to light even when the calls are out of order
    match firstUnsorted calls with
    | some index => ⟨setup.heap, setup.logs, .error (some index, .invalid (.unsorted index))⟩
    | none =>
      let rest := setup.heap.steps h palette 0 calls
      ⟨rest.heap, setup.logs ++ rest.logs, rest.result.map (notes ++ ·)⟩

/-- Runs calls against an allocator in a given state: what the run shows, and the state of the
allocator afterwards. -/
def run {σ : Type} (h : Host σ) (palette : Palette) (host : σ) (calls : List Call) :
    Except RunFailure Run × σ :=
  if palette.colors.isEmpty then (.error ⟨.emptyPalette, none, []⟩, host)
  else
    let outcome := runCalls h palette host calls
    (outcome.finish, outcome.heap.host)

end Heapscope
