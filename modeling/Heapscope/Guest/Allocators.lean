import Heapscope.Guest.Basic

/-!
# Guest allocators

Allocators as guests.  They compute with 32-bit words that wrap around.

* `firstFit` -- a map of the bytes in use on the first page, the sizes of blocks on the second;
* `bump`, `boundlessBump` -- addresses only go up, with and without a look at the capacity;
* `threadArena` -- 32 bytes for each thread;
* `annotating` -- highlights blocks and logs calls;
* `aligning` -- rounds sizes up to a multiple that the options name;
* `paging` -- hands out its own pages.
-/

namespace Heapscope.Guest

/-- The address of a block's size: one word per address, on the second page. -/
def sizeSlot (address : UInt32) : UInt32 := (address <<< 2) + 65536

/-- Looks at `left` bytes from `i` on for `size` free ones, when the `run` bytes from `first` up to
`i` are free; marks them, and notes the size. -/
def firstFitFrom (size : UInt32) : Nat → UInt32 → UInt32 → UInt32 → Code Int32
  | 0, _, _, _ => .finish (-1)
  | left + 1, i, first, run => do
    if (← Code.readByte i) ≠ 0 then firstFitFrom size left (i + 1) (i + 1) 0
    else if run + 1 = size then
      Code.fillSpan first size 1
      Code.writeWord (sizeSlot first) size
      return first.toInt32
    else firstFitFrom size left (i + 1) first (run + 1)

/-- Takes the lowest free span that is long enough. -/
def firstFit : Guest where
  pages := 2
  malloc := .code fun size => do
    if size ≤ 0 then return -1
    let capacity ← Code.ask .totalMemory
    firstFitFrom size.toUInt32 capacity.toUInt32.toNat 0 0 0
  free := .code fun address => do
    let size ← Code.readWord (sizeSlot address.toUInt32)
    Code.fillSpan address.toUInt32 size 0
    Code.writeWord (sizeSlot address.toUInt32) 0

/-- Does nothing. -/
def keep : Export (Int32 → Code Unit) := .code fun _ => .finish ()

/-- Hands out increasing addresses up to the capacity; none when it is used up. -/
def nextAddress? (size : Int32) : Code (Option Int32) := do
  let address ← Code.readGlobal 0
  let capacity ← Code.ask .totalMemory
  if capacity.toUInt32 < (address + size).toUInt32 then return none
  Code.writeGlobal 0 (address + size)
  return some address

def bump : Guest where
  malloc := .code fun size => do return (← nextAddress? size).getD (-1)
  free := keep

/-- Hands out increasing addresses without end. -/
def nextAddress (size : Int32) : Code Int32 := do
  let address ← Code.readGlobal 0
  Code.writeGlobal 0 (address + size)
  return address

/-- Has no release function. -/
def boundlessBump : Guest where
  malloc := .code nextAddress

/-- Each thread has 32 bytes, from 32 times its number on; memory holds how many are used. -/
def threadArena : Guest where
  malloc := .code fun size => do
    let thread := (← Code.ask .threadId).toUInt32
    let used ← Code.readWord (thread <<< 2)
    if 32 < used + size.toUInt32 then return -1
    Code.writeWord (thread <<< 2) (used + size.toUInt32)
    return ((thread <<< 5) + used).toInt32
  free := keep

/-- The color of a highlight. -/
def highlightColor : Int32 := 0xff8800

/-- The opacity of a highlight, one quarter. -/
def highlightAlpha : Binary64 := .ofRatio false 1 4

/-- Labels the address space when it is loaded, highlights each block and logs each call. -/
def annotating : Guest where
  data := [(1024, bytesOfText "heap"), (1040, bytesOfText "malloc"), (1056, bytesOfText "free")]
  start := Code.tell (.annotateText 0 1024 4)
  malloc := .code fun size => do
    match ← nextAddress? size with
    | none => return -1
    | some address =>
      Code.tell (.annotateRange address size highlightColor highlightAlpha)
      Code.tell (.log .info 1040 6)
      return address
  free := .code fun address => do
    Code.tell (.remove .range address)
    Code.tell (.log .warn 1056 4)

/-- The multiple that sizes are rounded up to: the digit under `align`, or one. -/
def alignment : Code UInt32 := do
  let length ← Code.ask (.optionLength 1024 5)
  if length ≠ 1 then return 1
  Code.tell (.readOption 1024 5 1100 1)
  return (← Code.readByte 1100).toUInt32 - 48

/-- Rounds sizes up, and hands out increasing addresses without end. -/
def aligning : Guest where
  data := [(1024, bytesOfText "align")]
  malloc := .code fun size => do
    let a ← alignment
    if a = 0 then .trap .divideByZero
    else nextAddress ((size.toUInt32 + (a - 1)) / a * a).toInt32
  free := keep

/-- Adds as many pages to its memory as it is asked for bytes. -/
def paging : Guest where
  malloc := .code Code.addPages
  free := keep

/-! ## Allocators that misbehave -/

/-- Hands out the address behind the last one. -/
def pastTheEnd : Guest where
  malloc := .code fun _ => Code.ask .totalMemory
  free := keep

/-- Hands out the first address again and again. -/
def alwaysZero : Guest where
  malloc := .code fun _ => .finish 0
  free := keep

def trapping : Guest where
  malloc := .code fun _ => .trap .unreachable
  free := keep

/-- Never returns from an allocation. -/
def endless : Guest where
  malloc := .code fun _ => .spin
  free := keep

/-- Asks for a label whose text is not in its memory. -/
def faulting : Guest where
  malloc := .code fun _ => do
    Code.tell (.annotateText 0 70000 4)
    return 0
  free := keep

/-- Allocates with a function of another type. -/
def wide : Guest where
  malloc := .mistyped
  free := keep

/-- Traps when it is loaded. -/
def trappingAtStart : Guest where
  start := .trap .unreachable
  malloc := .code fun _ => .finish 0
  free := keep

/-- Never ends being loaded. -/
def endlessAtStart : Guest where
  start := .spin
  malloc := .code fun _ => .finish 0
  free := keep

end Heapscope.Guest
