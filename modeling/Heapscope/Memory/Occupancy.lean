/-!
# Occupied bytes

An `Occupancy` records which bytes of an address space are in use, as bits in 64-bit words.  Marking
and clearing a span are all or nothing: a span that does not fit, or of which a byte is in the wrong
state already, changes nothing and is reported with the least such byte.

* `isMarked` -- whether a byte is in use;
* `mark`, `clear` -- take a span into use and give it back;
* `ranges` -- the maximal runs of bytes in use.
-/

namespace Heapscope

/-- Which bytes of an address space are in use. -/
structure Occupancy where
  /-- The bytes in use as bits, 64 to a word, the lowest bit first. -/
  words : Array UInt64
  /-- The size of the address space. -/
  capacity : UInt32
  /-- The number of bytes in use. -/
  occupied : Nat
  /-- The greatest byte that was ever in use. -/
  peak : Option UInt32
deriving Repr

/-- Why a span cannot be marked or cleared. -/
inductive OccupancyFault where
  /-- The byte is in use already. -/
  | inUse (address : UInt32)
  /-- The byte is not in use. -/
  | unused (address : UInt32)
  /-- The span does not fit the address space. -/
  | outside (address size capacity : UInt32)
deriving DecidableEq, Repr

namespace OccupancyFault

def message : OccupancyFault → String
  | inUse address => s!"byte {address} is already allocated"
  | unused address => s!"byte {address} is not allocated"
  | outside address size capacity =>
    s!"range [{address}, {address}+{size}) exceeds capacity {capacity}"

end OccupancyFault

namespace Occupancy

/-- An address space with no byte in use. -/
def empty (capacity : UInt32) : Occupancy :=
  ⟨Array.replicate ((capacity.toNat + 63) / 64) 0, capacity, 0, none⟩

/-- The bit of a byte within its word. -/
def bit (address : Nat) : UInt64 := 1 <<< UInt64.ofNat (address % 64)

/-- Whether the bit of a byte is set. -/
def testBit (words : Array UInt64) (address : Nat) : Bool :=
  words.getD (address / 64) 0 &&& bit address != 0

/-- Whether a byte is in use; never beyond the capacity. -/
def isMarked (o : Occupancy) (address : UInt32) : Bool :=
  address < o.capacity && testBit o.words address.toNat

/-- The words with the bit of a byte set or cleared. -/
def writeBit (value : Bool) (words : Array UInt64) (address : Nat) : Array UInt64 :=
  words.modify (address / 64) fun w => if value then w ||| bit address else w &&& ~~~bit address

/-- The words with the bits of `size` bytes from `address` on set or cleared. -/
def write (value : Bool) (words : Array UInt64) (address : Nat) : Nat → Array UInt64
  | 0 => words
  | size + 1 => write value (writeBit value words address) (address + 1) size

/-- The first of `size` bytes from `address` on whose bit has the given value. -/
def firstWith (value : Bool) (words : Array UInt64) (address : Nat) : Nat → Option Nat
  | 0 => none
  | size + 1 =>
    if testBit words address == value then some address
    else firstWith value words (address + 1) size

/-- Whether `size` bytes from `address` on fit, by a sum of 64-bit numbers. -/
def fits (o : Occupancy) (address size : UInt32) : Bool :=
  address.toUInt64 + size.toUInt64 ≤ o.capacity.toUInt64

/-- Takes a span into use. -/
def mark (o : Occupancy) (address size : UInt32) : Except OccupancyFault Occupancy :=
  if !o.fits address size then .error (.outside address size o.capacity)
  else match firstWith true o.words address.toNat size.toNat with
    | some a => .error (.inUse (UInt32.ofNat a))
    | none =>
      let last := address + size - 1
      .ok { o with
        words := write true o.words address.toNat size.toNat
        occupied := o.occupied + size.toNat
        peak := if size = 0 then o.peak else some (o.peak.elim last (max last)) }

/-- Gives a span back. -/
def clear (o : Occupancy) (address size : UInt32) : Except OccupancyFault Occupancy :=
  if !o.fits address size then .error (.outside address size o.capacity)
  else match firstWith false o.words address.toNat size.toNat with
    | some a => .error (.unused (UInt32.ofNat a))
    | none =>
      .ok { o with
        words := write false o.words address.toNat size.toNat
        occupied := o.occupied - size.toNat }

/-- The maximal runs among `count` bytes from `address` on; `start` is where the run that is open
before them began. -/
def runs (words : Array UInt64) (start : Option Nat) (address : Nat) : Nat → List (Nat × Nat)
  | 0 => start.toList.map fun s => (s, address - s)
  | count + 1 =>
    match testBit words address, start with
    | true, none => runs words (some address) (address + 1) count
    | false, some s => (s, address - s) :: runs words none (address + 1) count
    | _, _ => runs words start (address + 1) count

/-- The maximal runs of bytes in use, as first byte and length, in ascending order. -/
def ranges (o : Occupancy) : List (Nat × Nat) := runs o.words none 0 o.capacity.toNat

end Occupancy

end Heapscope
