/-!
# White space

A character is blank when it has the White_Space property of Unicode 15: 25 characters in ten
ranges.  Workload authors may put blanks around attribute values; `trim` removes them.
-/

namespace Heapscope

/-- The blank code points, as closed ranges in ascending order. -/
def blankRanges : List (Nat × Nat) :=
  [(0x09, 0x0d), (0x20, 0x20), (0x85, 0x85), (0xa0, 0xa0), (0x1680, 0x1680), (0x2000, 0x200a),
    (0x2028, 0x2029), (0x202f, 0x202f), (0x205f, 0x205f), (0x3000, 0x3000)]

/-- Whether a character is white space. -/
def isBlank (c : Char) : Bool := blankRanges.any fun r => r.1 ≤ c.toNat && c.toNat ≤ r.2

/-- The characters up to the last one that is not blank. -/
def trimRight (cs : List Char) : List Char := (cs.reverse.dropWhile isBlank).reverse

/-- The characters from the first one that is not blank to the last one. -/
def trim (cs : List Char) : List Char := trimRight (cs.dropWhile isBlank)

end Heapscope
