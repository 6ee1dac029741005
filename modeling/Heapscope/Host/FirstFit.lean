import Heapscope.Host.Basic
import Heapscope.OrderedMap

/-!
# A first-fit allocator

Each allocation takes the lowest free span that is long enough.  The allocator keeps a record of the
calls made of it.  It can be given replies to return instead, one per allocation, before it starts
to answer by itself; and it can be told to annotate and log what it does, or to lack a release
function.
-/

namespace Heapscope

/-- A call made of an allocator. -/
inductive HostCall where
  | malloc (thread : ThreadId) (size : UInt32)
  | free (thread : ThreadId) (address : UInt32)
deriving DecidableEq, Repr

/-- The state of a first-fit allocator. -/
structure FirstFit where
  /-- The number of bytes. -/
  capacity : UInt32
  thread : ThreadId := 0
  /-- Whether a byte is in use; of no meaning beyond the last byte. -/
  used : Nat → Bool := fun _ => false
  /-- The sizes of the blocks in use, by address. -/
  sizes : OrderedMap UInt32 UInt32 := .empty
  /-- Replies to the next allocations. -/
  script : List (Except HostError Int64) := []
  /-- Whether it annotates and logs what it does. -/
  annotating : Bool := false
  /-- Whether it has a release function. -/
  hasFree : Bool := true
  notes : List Note := []
  logs : List LogEntry := []
  /-- The calls made so far. -/
  calls : List HostCall := []

namespace FirstFit

/-- An allocator with all of its bytes free. -/
def empty (capacity : UInt32) : FirstFit := { capacity }

/-- Whether `size` bytes from `start` on are free. -/
def freeSpan (used : Nat → Bool) (start : Nat) : Nat → Bool
  | 0 => true
  | size + 1 => !used start && freeSpan used (start + 1) size

/-- The lowest of `count` addresses from `start` on where `size` bytes are free. -/
def searchFrom (used : Nat → Bool) (size start : Nat) : Nat → Option Nat
  | 0 => none
  | count + 1 =>
    if freeSpan used start size then some start else searchFrom used size (start + 1) count

/-- The lowest address where `size` bytes are free; none for an empty block. -/
def search (s : FirstFit) (size : Nat) : Option Nat :=
  let capacity := s.capacity.toNat
  if size = 0 ∨ capacity < size then none else searchFrom s.used size 0 (capacity - size + 1)

/-- Marks `size` bytes from `start` on. -/
def fill (value : Bool) (used : Nat → Bool) (start size : Nat) : Nat → Bool :=
  fun p => if start ≤ p ∧ p < start + size then value else used p

/-- Queues a note and a message about what was done. -/
def report (s : FirstFit) (note : Note) (level : LogLevel) (message : String) : FirstFit :=
  if s.annotating then
    { s with notes := s.notes ++ [note], logs := s.logs ++ [⟨level, message⟩] }
  else s

/-- Allocates by the script, or else by search. -/
def malloc (size : UInt32) (s : FirstFit) : Except HostError Int64 × FirstFit :=
  -- the call is on record whatever comes of it
  let s := { s with calls := s.calls ++ [HostCall.malloc s.thread size] }
  match s.script with
  | reply :: rest => (reply, { s with script := rest })
  | [] =>
    match s.search size.toNat with
    | none => (.ok (-1), s)
    | some start =>
      let address := UInt32.ofNat start
      let s := { s with
        used := fill true s.used start size.toNat
        sizes := s.sizes.insert address size }
      let note := { Note.bare (.add .range) address with size := some size }
      (.ok (Int64.ofNat start), s.report note .info s!"malloc({size}) = {address}")

/-- Releases a block; an address that is no block's is passed over. -/
def free (address : UInt32) (s : FirstFit) : Except HostError Unit × FirstFit :=
  if s.hasFree then
    let s := { s with calls := s.calls ++ [HostCall.free s.thread address] }
    let s := match s.sizes.find? address with
      | some size => { s with
          used := fill false s.used address.toNat size.toNat
          sizes := s.sizes.erase address }
      | none => s
    (.ok (), s.report (.bare (.remove .range) address) .warn s!"free({address})")
  else (.error (.missing .free), s)

/-- The allocator as a host. -/
def host (capacity : UInt32) : Host FirstFit where
  capacity := capacity
  setThread thread s := { s with thread }
  malloc := malloc
  free := free
  drainNotes s := (s.notes, { s with notes := [] })
  drainLogs s := (s.logs, { s with logs := [] })

end FirstFit

end Heapscope
