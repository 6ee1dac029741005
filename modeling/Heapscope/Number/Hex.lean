/-!
# Hexadecimal text

Colors and addresses are shown in base sixteen, in lower case and padded with zeros.
-/

namespace Heapscope

/-- The hexadecimal digits of a number. -/
def hexDigits (n : Nat) : String := String.ofList (Nat.toDigits 16 n)

/-- The hexadecimal digits of a number, padded with zeros to at least the given width. -/
def hexPadded (width n : Nat) : String :=
  let digits := Nat.toDigits 16 n
  String.ofList (List.replicate (width - digits.length) '0' ++ digits)

end Heapscope
