import Heapscope.Number.Hex
import Heapscope.Number.Shortest

/-!
# Invalid values

The ways in which a value can break a rule of addresses, sizes, colors, opacity or order.
-/

namespace Heapscope

/-- Why a value is refused. -/
inductive Invalid where
  /-- Some of the `size` bytes from `address` on lie outside an address space. -/
  | outside (address : Int64) (size capacity : UInt32)
  /-- A block or a highlight cannot have this size. -/
  | size (n : UInt32)
  /-- A color has more than 24 bits. -/
  | color (n : UInt32)
  /-- An opacity lies outside the unit interval. -/
  | alpha (x : Binary64)
  /-- The call at `index` sorts before the one in front of it. -/
  | unsorted (index : Nat)
  /-- A key names a live block already. -/
  | duplicateKey (key : String)
  /-- A note lacks a field that its kind needs. -/
  | incomplete (kind field : String)
deriving DecidableEq, Repr

namespace Invalid

/-- The message for a refused value. -/
def message : Invalid → String
  | outside address length capacity =>
    s!"range [{address}, {address}+{length}) lies outside address space of {capacity} bytes"
  | size n => s!"invalid size {n}"
  | color n => "invalid color 0x" ++ hexDigits n.toNat ++ " (must be 0..=0xffffff)"
  | alpha x => s!"alpha must lie in [0, 1], got {x.text}"
  | unsorted index => s!"trace is not sorted by (time, thread) at call {index}"
  | duplicateKey key => "allocation id '" ++ key ++ "' is already live"
  | incomplete kind field => kind ++ " annotation requires '" ++ field ++ "'"

end Invalid

/-! ## Ranges of addresses -/

/-- The end of `size` bytes from `address` on, as a sum of 64-bit integers; none when the sum is no
64-bit integer. -/
def endOf? (address : Int64) (size : UInt32) : Option Int64 :=
  if address.toInt + size.toNat ≤ Int64.maxValue.toInt then some (address + Int64.ofNat size.toNat)
  else none

/-- Refuses `size` bytes from `address` on unless they lie inside `[0, capacity)`.  The check itself
fails, with no answer, when the end of the range cannot be computed. -/
def checkRange? (address : Int64) (size capacity : UInt32) : Option (Except Invalid Unit) :=
  if address < 0 then some (.error (.outside address size capacity))
  else (endOf? address size).map fun stop =>
    if Int64.ofNat capacity.toNat < stop then .error (.outside address size capacity) else .ok ()

theorem toInt_ofNat_word (n : UInt32) : (Int64.ofNat n.toNat).toInt = n.toNat := by
  have bound := n.toNat_lt
  exact Int64.toInt_ofNat_of_lt (by omega)

/-- The sum is a 64-bit integer when the address has 32 bits. -/
theorem endOf?_word (address size : UInt32) :
    endOf? (.ofNat address.toNat) size = some (.ofNat address.toNat + .ofNat size.toNat) := by
  have ha := address.toNat_lt
  have hs := size.toNat_lt
  have last : Int64.maxValue.toInt = 9223372036854775807 := rfl
  unfold endOf?
  rw [toInt_ofNat_word, if_pos (by omega)]

/-- There is always an answer for an address of 32 bits. -/
theorem isSome_checkRange?_word (address size capacity : UInt32) :
    (checkRange? (.ofNat address.toNat) size capacity).isSome := by
  unfold checkRange?
  rw [endOf?_word]
  split <;> rfl

/-- The check of a range whose address has 32 bits. -/
def checkSpan (address size capacity : UInt32) : Except Invalid Unit :=
  (checkRange? (.ofNat address.toNat) size capacity).get
    (isSome_checkRange?_word address size capacity)

end Heapscope
