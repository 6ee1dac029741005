import Heapscope.Number.Binary64
import Heapscope.Number.Shortest

/-!
# Times

Every time and duration is a whole number of microseconds below `2 ^ 64`.  Sums and differences stop
at the ends of that range, so the clock never wraps.  Authors write milliseconds; `ofMillis?` and
`millis` convert, each rounding once.
-/

namespace Heapscope

/-- A time or a duration in microseconds. -/
structure Micros where
  count : UInt64
deriving DecidableEq, Repr, Inhabited

namespace Micros

def zero : Micros := ⟨0⟩

/-- The time of `n` microseconds, or the last time there is. -/
def ofNatSaturating (n : Nat) : Micros := ⟨UInt64.ofNat (min n (UInt64.size - 1))⟩

/-- The sum, or the last time there is. -/
def add (a b : Micros) : Micros := ofNatSaturating (a.count.toNat + b.count.toNat)

/-- The difference, or zero. -/
def sub (a b : Micros) : Micros := ofNatSaturating (a.count.toNat - b.count.toNat)

instance : Add Micros := ⟨add⟩
instance : Sub Micros := ⟨sub⟩
instance : LT Micros := ⟨fun a b => a.count < b.count⟩
instance : LE Micros := ⟨fun a b => a.count ≤ b.count⟩
instance (a b : Micros) : Decidable (a < b) := inferInstanceAs (Decidable (a.count < b.count))
instance (a b : Micros) : Decidable (a ≤ b) := inferInstanceAs (Decidable (a.count ≤ b.count))
instance : Ord Micros := ⟨fun a b => compare a.count b.count⟩
instance : Max Micros := ⟨fun a b => if a ≤ b then b else a⟩

/-- The number of thousandths in a millisecond value. -/
def thousand : Binary64 := .ofNat 1000

/-- The time nearest to a number of microseconds; none above `2 ^ 64`, which itself stands for the
last time there is. -/
def ofRounded? (us : Binary64) : Option Micros := do
  let n ← us.roundHalfAway
  if n ≤ UInt64.size then some (ofNatSaturating n) else none

/-- The time nearest to a number of milliseconds; none for what is no number, infinite, negative or
beyond the clock. -/
def ofMillis? (ms : Binary64) : Option Micros :=
  if ms.isFinite ∧ ¬ms.lt .zero then ofRounded? (ms * thousand) else none

/-- The time in milliseconds. -/
def millis (t : Micros) : Binary64 := Binary64.ofNat t.count.toNat / thousand

/-- The time as shown in messages. -/
def text (t : Micros) : String := t.millis.text ++ "ms"

end Micros

end Heapscope
