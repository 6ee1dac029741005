/-!
# Linear memory

The memory of a guest is a number of pages of 65536 bytes each.  Every access states a span, and a
span that does not lie in memory is refused as a whole.

* `read?`, `write?`, `fill?` -- the bytes of a span;
* `grow?` -- more pages, up to a limit on the size in bytes;
* `bytesOfWord`, `wordOfBytes` -- 32-bit words, lowest byte first.
-/

namespace Heapscope

/-- The memory of a guest. -/
structure LinearMemory where
  pages : Nat
  /-- The byte at an address; of no meaning beyond the last page. -/
  byte : Nat → UInt8

namespace LinearMemory

def pageSize : Nat := 65536

/-- The greatest number of pages that 32-bit addresses can tell apart. -/
def pageLimit : Nat := 65536

/-- Pages of zeros. -/
def blank (pages : Nat) : LinearMemory := ⟨pages, fun _ => 0⟩

def size (m : LinearMemory) : Nat := m.pages * pageSize

/-- Whether a span lies in memory. -/
def holds (m : LinearMemory) (address count : Nat) : Bool := address + count ≤ m.size

/-- The bytes of a span. -/
def read? (m : LinearMemory) (address count : Nat) : Option (List UInt8) :=
  if m.holds address count then some ((List.range' address count).map m.byte) else none

/-- Puts bytes from an address on. -/
def write? (m : LinearMemory) (address : Nat) (bytes : List UInt8) : Option LinearMemory :=
  if m.holds address bytes.length then
    some { m with
      byte := fun p => if address ≤ p then bytes.getD (p - address) (m.byte p) else m.byte p }
  else none

/-- Puts one value into every byte of a span. -/
def fill? (m : LinearMemory) (address count : Nat) (value : UInt8) : Option LinearMemory :=
  if m.holds address count then
    some { m with
      byte := fun p => if address ≤ p ∧ p < address + count then value else m.byte p }
  else none

/-- Adds pages; none when memory would be larger than the limit. -/
def grow? (m : LinearMemory) (limit more : Nat) : Option LinearMemory :=
  if m.pages + more ≤ pageLimit ∧ (m.pages + more) * pageSize ≤ limit then
    some { m with pages := m.pages + more }
  else none

end LinearMemory

/-- The four bytes of a word, lowest first. -/
def bytesOfWord (w : UInt32) : List UInt8 :=
  [w.toUInt8, (w >>> 8).toUInt8, (w >>> 16).toUInt8, (w >>> 24).toUInt8]

/-- The word of bytes, lowest first. -/
def wordOfBytes : List UInt8 → UInt32
  | [] => 0
  | b :: rest => b.toUInt32 + (wordOfBytes rest <<< 8)

end Heapscope
