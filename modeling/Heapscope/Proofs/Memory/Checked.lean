import Heapscope.Proofs.Memory.Spans

/-!
# Arithmetic that stays in range

Addresses and sizes are 32-bit numbers, a byte is a bit of a 64-bit word, and the counter of bytes
in use is a number of the machine.  Marking and clearing add, subtract, shift and look up such
numbers, and each of these operations has a range that it must not leave.

Here marking, clearing and looking at a byte are carried out by operations that are undefined beyond
their range, one after the other on the occupancy as it then is.  They are defined whenever the
words reach as far as the address space and the counter counts, and come to the same.

* `Exact.add32?`, `Exact.sub32?`, ... -- operations that are undefined beyond their range;
* `Occupancy.mark?`, `Occupancy.clear?`, `Occupancy.isMarked?` -- the same, with these operations;
* `Occupancy.isMarked?_eq`, `Occupancy.mark?_eq`, `Occupancy.clear?_eq` -- they are defined, and
  come to the same.
-/

namespace Heapscope

/-! ## Operations -/

namespace Exact

/-- The sum of two addresses. -/
def add32? (a b : UInt32) : Option UInt32 :=
  if a.toNat + b.toNat < 2 ^ 32 then some (a + b) else none

/-- The difference of two addresses. -/
def sub32? (a b : UInt32) : Option UInt32 := if b.toNat ≤ a.toNat then some (a - b) else none

/-- The sum of two words. -/
def add64? (a b : UInt64) : Option UInt64 :=
  if a.toNat + b.toNat < 2 ^ 64 then some (a + b) else none

/-- The sum of two counters, which have 32 bits on the smallest machine. -/
def addCount? (a b : Nat) : Option Nat := if a + b < 2 ^ 32 then some (a + b) else none

/-- The difference of two counters. -/
def subCount? (a b : Nat) : Option Nat := if b ≤ a then some (a - b) else none

/-- One, shifted within a word. -/
def shiftOne? (n : Nat) : Option UInt64 :=
  if n < 64 then some (1 <<< UInt64.ofNat n) else none

variable {a b : UInt32}

theorem add32?_eq (fits : a.toNat + b.toNat < 2 ^ 32) : add32? a b = some (a + b) := if_pos fits

theorem toNat_add (fits : a.toNat + b.toNat < 2 ^ 32) : (a + b).toNat = a.toNat + b.toNat := by
  rw [UInt32.toNat_add, Nat.mod_eq_of_lt fits]

theorem sub32?_eq (le : b.toNat ≤ a.toNat) : sub32? a b = some (a - b) := if_pos le

theorem toNat_sub (le : b.toNat ≤ a.toNat) : (a - b).toNat = a.toNat - b.toNat :=
  UInt32.toNat_sub_of_le a b (UInt32.le_iff_toNat_le.mpr le)

/-- Words that hold addresses have a sum. -/
theorem add64?_eq (a b : UInt32) :
    add64? a.toUInt64 b.toUInt64 = some (a.toUInt64 + b.toUInt64) := by
  have ha := a.toNat_lt
  have hb := b.toNat_lt
  refine if_pos ?_
  rw [UInt32.toNat_toUInt64, UInt32.toNat_toUInt64]
  omega

theorem shiftOne?_eq (address : Nat) :
    shiftOne? (address % 64) = some (Occupancy.bit address) :=
  if_pos (Nat.mod_lt _ (by decide))

end Exact

open Exact

namespace Occupancy

/-! ## Occupancies step by step -/

/-- Whether a byte is in use. -/
def isMarked? (o : Occupancy) (address : UInt32) : Option Bool :=
  if address < o.capacity then do
    let word ← o.words[address.toNat / 64]?
    let mask ← shiftOne? (address.toNat % 64)
    some (word &&& mask != 0)
  else some false

/-- The first of `count` bytes from an address on that is in use, or not. -/
def firstWith? (value : Bool) (o : Occupancy) (address : UInt32) : Nat → Option (Option UInt32)
  | 0 => some none
  | count + 1 => do
    if (← o.isMarked? address) = value then some (some address)
    else firstWith? value o (← add32? address 1) count

/-- The words with the bit of a byte set or cleared. -/
def writeBit? (value : Bool) (words : Array UInt64) (address : Nat) : Option (Array UInt64) := do
  let mask ← shiftOne? (address % 64)
  let word ← words[address / 64]?
  some (words.setIfInBounds (address / 64) (if value then word ||| mask else word &&& ~~~mask))

/-- The words with the bits of `count` bytes from an address on set or cleared. -/
def write? (value : Bool) (words : Array UInt64) (address : Nat) : Nat → Option (Array UInt64)
  | 0 => some words
  | count + 1 => do write? value (← writeBit? value words address) (address + 1) count

/-- Sets or clears the bits of a span that fits, unless one of its bytes has the value already; the
end of the span is handed on. -/
def turn? (value : Bool) (fault : UInt32 → OccupancyFault) (o : Occupancy) (address size : UInt32) :
    Option (Except OccupancyFault UInt32 × Occupancy) := do
  let sum ← add64? address.toUInt64 size.toUInt64
  if o.capacity.toUInt64 < sum then some (.error (.outside address size o.capacity), o)
  else do
    let stop ← add32? address size
    match ← o.firstWith? value address (stop.toNat - address.toNat) with
    | some b => some (.error (fault b), o)
    | none => do
      let words ← write? value o.words address.toNat (stop.toNat - address.toNat)
      some (.ok stop, { o with words })

/-- Takes a span into use: the bits, the counter, the greatest byte. -/
def mark? (o : Occupancy) (address size : UInt32) :
    Option (Except OccupancyFault Unit × Occupancy) := do
  match ← o.turn? true .inUse address size with
  | (.error e, o) => some (.error e, o)
  | (.ok stop, o) => do
    let occupied ← addCount? o.occupied size.toNat
    let o := { o with occupied }
    if size = 0 then some (.ok (), o)
    else do
      let last ← sub32? stop 1
      some (.ok (), { o with peak := some (o.peak.elim last (max last)) })

/-- Gives a span back: the bits, the counter. -/
def clear? (o : Occupancy) (address size : UInt32) :
    Option (Except OccupancyFault Unit × Occupancy) := do
  match ← o.turn? false .unused address size with
  | (.error e, o) => some (.error e, o)
  | (.ok _, o) => do
    let occupied ← subCount? o.occupied size.toNat
    some (.ok (), { o with occupied })

/-- What is left of an occupancy that was to be changed: nothing has changed when it was refused. -/
def settle (o : Occupancy) :
    Except OccupancyFault Occupancy → Except OccupancyFault Unit × Occupancy
  | .ok o' => (.ok (), o')
  | .error e => (.error e, o)

/-! ## They are defined -/

variable {o : Occupancy}

theorem testBit_eq_getElem {words : Array UInt64} {b : Nat} {word : UInt64}
    (found : words[b / 64]? = some word) : testBit words b = (word &&& bit b != 0) := by
  unfold testBit
  rw [Array.getD_eq_getD_getElem?, found, Option.getD_some]

theorem isMarked?_eq (wf : o.WellFormed) (address : UInt32) :
    o.isMarked? address = some (o.isMarked address) := by
  unfold isMarked? isMarked
  by_cases inside : address < o.capacity
  · have below := UInt32.lt_iff_toNat_lt.mp inside
    have reach : address.toNat / 64 < o.words.size := by
      unfold WellFormed at wf
      omega
    have found := Array.getElem?_eq_getElem reach
    rw [if_pos inside, found, shiftOne?_eq, testBit_eq_getElem found, decide_eq_true inside]
    rfl
  · rw [if_neg inside, decide_eq_false inside]
    rfl

theorem firstWith?_eq (wf : o.WellFormed) (value : Bool) {address : UInt32} {count : Nat}
    (fits : address.toNat + count ≤ o.capacity.toNat) :
    o.firstWith? value address count
      = some ((firstWith value o.words address.toNat count).map UInt32.ofNat) := by
  induction count generalizing address with
  | zero => rfl
  | succ count ih =>
    have bound := o.capacity.toNat_lt
    have inside : address < o.capacity := UInt32.lt_iff_toNat_lt.mpr (by omega)
    have small : address.toNat + (1 : UInt32).toNat < 2 ^ 32 := by
      rw [UInt32.toNat_one]
      omega
    have next : (address + 1).toNat = address.toNat + 1 := by
      rw [toNat_add small, UInt32.toNat_one]
    have rest := @ih (address + 1) (by omega)
    have marked : o.isMarked address = testBit o.words address.toNat := by
      unfold isMarked
      rw [decide_eq_true inside, Bool.true_and]
    rw [firstWith?, firstWith, isMarked?_eq wf, marked, add32?_eq small]
    simp only [Option.bind_eq_bind, Option.bind_some, beq_iff_eq, rest, next]
    split
    · rw [Option.map_some, UInt32.ofNat_toNat]
    · rfl

theorem writeBit?_eq (value : Bool) {words : Array UInt64} {address : Nat}
    (reach : address / 64 < words.size) :
    writeBit? value words address = some (writeBit value words address) := by
  have same : words.setIfInBounds (address / 64)
      (if value then words[address / 64] ||| bit address
        else words[address / 64] &&& ~~~bit address) = writeBit value words address := by
    apply Array.ext_getElem?
    intro i
    unfold writeBit
    rw [Array.getElem?_modify, Array.getElem?_setIfInBounds]
    by_cases here : address / 64 = i
    · subst here
      rw [if_pos rfl, if_pos rfl, if_pos reach, Array.getElem?_eq_getElem reach]
      rfl
    · rw [if_neg here, if_neg here]
  unfold writeBit?
  rw [shiftOne?_eq, Array.getElem?_eq_getElem reach]
  exact congrArg some same

theorem write?_eq (value : Bool) {words : Array UInt64} {address count : Nat}
    (reach : address + count ≤ 64 * words.size) :
    write? value words address count = some (write value words address count) := by
  induction count generalizing words address with
  | zero => rfl
  | succ count ih =>
    have size : (writeBit value words address).size = words.size := Array.size_modify
    rw [write?, write, writeBit?_eq value (by omega)]
    exact ih (by rw [size]; omega)

/-- Turning a span comes to what the search in it comes to. -/
theorem turn?_eq (wf : o.WellFormed) (value : Bool) (fault : UInt32 → OccupancyFault)
    (address size : UInt32) :
    o.turn? value fault address size = some (
      if !o.fits address size then (.error (.outside address size o.capacity), o)
      else match firstWith value o.words address.toNat size.toNat with
        | some b => (.error (fault (UInt32.ofNat b)), o)
        | none => (.ok (address + size),
            { o with words := write value o.words address.toNat size.toNat })) := by
  have beyond : o.capacity.toUInt64 < address.toUInt64 + size.toUInt64
      ↔ ¬o.fits address size = true := by
    unfold fits
    rw [decide_eq_true_eq, UInt64.not_le]
  unfold turn?
  rw [add64?_eq, Option.bind_eq_bind, Option.bind_some]
  by_cases fit : o.fits address size = true
  · have bound : address.toNat + size.toNat ≤ o.capacity.toNat := fits_iff.mp fit
    have small : address.toNat + size.toNat < 2 ^ 32 :=
      Nat.lt_of_le_of_lt bound o.capacity.toNat_lt
    have count : (address + size).toNat - address.toNat = size.toNat := by
      rw [toNat_add small]
      omega
    rw [if_neg (fun h => beyond.mp h fit), fit, if_neg (by decide), add32?_eq small]
    simp only [Option.bind_eq_bind, Option.bind_some, count, firstWith?_eq wf value bound,
      write?_eq value (Nat.le_trans bound wf)]
    cases firstWith value o.words address.toNat size.toNat <;> rfl
  · rw [Bool.not_eq_true] at fit
    rw [if_pos (beyond.mpr (by rw [fit]; decide)), fit]
    rfl

/-- Marking stays in range when the counter does. -/
theorem mark?_eq (wf : o.WellFormed) {address size : UInt32}
    (room : ∀ o', o.mark address size = .ok o' → o'.occupied < 2 ^ 32) :
    o.mark? address size = some (o.settle (o.mark address size)) := by
  unfold mark?
  rw [turn?_eq wf]
  unfold mark at room ⊢
  by_cases fit : o.fits address size = true
  · have bound : address.toNat + size.toNat ≤ o.capacity.toNat := fits_iff.mp fit
    have small : address.toNat + size.toNat < 2 ^ 32 :=
      Nat.lt_of_le_of_lt bound o.capacity.toNat_lt
    rw [fit, if_neg (by decide)] at room ⊢
    cases found : firstWith true o.words address.toNat size.toNat with
    | some b => rfl
    | none =>
      rw [found] at room
      have counted : addCount? o.occupied size.toNat = some (o.occupied + size.toNat) :=
        if_pos (room _ rfl)
      simp only [Option.bind_eq_bind, Option.bind_some, counted]
      by_cases empty : size = 0
      · rw [if_pos empty, if_neg (by decide), settle, if_pos empty]
      · have positive : 0 < size.toNat := by
          rw [Nat.pos_iff_ne_zero]
          intro zero
          exact empty (UInt32.toNat_inj.mp (by rw [zero]; rfl))
        -- the end of a span that is not empty has a byte in front of it
        have last : sub32? (address + size) 1 = some (address + size - 1) := by
          refine sub32?_eq ?_
          rw [toNat_add small, UInt32.toNat_one]
          omega
        rw [if_neg empty, last, if_neg (by decide), settle, if_neg empty]
        rfl
  · rw [Bool.not_eq_true] at fit
    rw [fit]
    rfl

/-- Clearing stays in range when the counter counts the bytes that are cleared. -/
theorem clear?_eq (wf : o.WellFormed) {address size : UInt32}
    (counted : ∀ o', o.clear address size = .ok o' → size.toNat ≤ o.occupied) :
    o.clear? address size = some (o.settle (o.clear address size)) := by
  unfold clear?
  rw [turn?_eq wf]
  unfold clear at counted ⊢
  by_cases fit : o.fits address size = true
  · rw [fit, if_neg (by decide)] at counted ⊢
    cases found : firstWith false o.words address.toNat size.toNat with
    | some b => rfl
    | none =>
      rw [found] at counted
      have left : subCount? o.occupied size.toNat = some (o.occupied - size.toNat) :=
        if_pos (counted _ rfl)
      simp only [Option.bind_eq_bind, Option.bind_some, left]
      rfl
  · rw [Bool.not_eq_true] at fit
    rw [fit]
    rfl

end Occupancy

end Heapscope
