import Heapscope.Trace.Basic

/-!
# Digests

Two traces are first compared by a 64-bit digest of a byte sequence that spells out every field.
Texts are preceded by their length, and optional values by a byte that tells whether they are
there, so that different values have different byte sequences.

* `Encode` -- the byte sequences of numbers, texts, optional values and calls;
* `digest` -- the FNV-1a digest of a byte sequence.
-/

namespace Heapscope

/-- The FNV-1a digest of a byte sequence. -/
def digest (bytes : List UInt8) : UInt64 :=
  bytes.foldl (fun h b => (h ^^^ b.toUInt64) * 0x100000001b3) 0xcbf29ce484222325

namespace Encode

/-- The `count` lowest bytes of a number, the lowest first. -/
def littleEndian : Nat → Nat → List UInt8
  | 0, _ => []
  | count + 1, n => UInt8.ofNat (n % 256) :: littleEndian count (n / 256)

def word (n : UInt32) : List UInt8 := littleEndian 4 n.toNat

def double (n : UInt64) : List UInt8 := littleEndian 8 n.toNat

/-- A length. -/
def length (n : Nat) : List UInt8 := littleEndian 8 n

def binary64 (x : Binary64) : List UInt8 := double x.bits

/-- A text: the number of its bytes, then the bytes. -/
def text (s : String) : List UInt8 :=
  let bytes := s.toUTF8.toList
  length bytes.length ++ bytes

/-- A value that may be absent: one and the value, or zero. -/
def optional {α : Type} (encode : α → List UInt8) : Option α → List UInt8
  | some a => 1 :: encode a
  | none => [0]

def color (c : Color) : List UInt8 := word c.value

/-- A note: its kind and every field. -/
def note (a : Note) : List UInt8 :=
  text a.kind.name ++ word a.address ++ optional word a.size ++ optional word a.target
    ++ optional text a.text ++ optional color a.color ++ optional binary64 a.alpha

/-- The arguments of an operation. -/
def args : Op → List UInt8
  | .malloc size pinned c => word size ++ optional word pinned ++ optional color c
  | .free address c => optional word address ++ optional color c
  | .sleep => []
  | .annotate a => note a

/-- The key of a block, if there is one: one before a name, two before an address. -/
def key : Option AllocationKey → List UInt8
  | some (.named name) => 1 :: text name
  | some (.address a) => 2 :: word a
  | none => [0]

/-- A call: the function and every field. -/
def call (c : Call) : List UInt8 :=
  text c.op.name ++ args c.op ++ key c.id ++ optional word c.result ++ word c.thread
    ++ double c.time.count ++ double c.duration.count

/-- Calls in order, preceded by their number. -/
def calls (l : List Call) : List UInt8 := length l.length ++ l.flatMap call

end Encode

namespace Call

def digest (c : Call) : UInt64 := Heapscope.digest (Encode.call c)

end Call

namespace Trace

def digest (t : Trace) : UInt64 := Heapscope.digest (Encode.calls t.calls)

end Trace

end Heapscope
