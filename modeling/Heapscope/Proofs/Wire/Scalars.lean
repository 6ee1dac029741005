import Heapscope.Proofs.Json.Documents
import Heapscope.Proofs.Number.Order
import Heapscope.Wire.Scalar

/-!
# Values that are read as they were written

Whole numbers of 32 bits, strings, colors and keys are read as what they were written from.  A
binary64 number is, if the text of it is read back as the number (`Binary64.Survives`), and a time
is, if its number of milliseconds survives and stands for the time.

* `Json.Printable` -- held by every value that is written;
* `Json.readUInt32_nat`, `Color.ofJson_toJson`, `AllocationKey.ofJson_toJson`,
  `Binary64.Survives.read`, `Micros.Survives.read` -- what is read from what was written.
-/

namespace Heapscope

/-! ## Numerals -/

namespace Numeral

/-- Digits that make up a number of 64 bits are all taken. -/
theorem takeDigits_eq {significand : Nat} {ds : List Digit}
    (fits : Digit.valueFrom significand ds ≤ wordLimit) :
    takeDigits significand ds = (Digit.valueFrom significand ds, []) := by
  induction ds generalizing significand with
  | nil => rfl
  | cons d ds ih =>
    rw [Digit.valueFrom_cons] at fits ⊢
    have first : 10 * significand + d.val ≤ wordLimit :=
      Nat.le_trans (Digit.le_valueFrom _ ds) fits
    rw [takeDigits, if_pos first, ih fits]

theorem takeDigits_decimalDigits {n : Nat} (fits : n ≤ wordLimit) :
    takeDigits 0 (decimalDigits n) = (n, []) := by
  have value := value_decimalDigits n
  unfold Digit.value at value
  rw [takeDigits_eq (value.symm ▸ fits), value]

/-- Every whole number of 64 bits is read as some number. -/
theorem isSome_binary64?_ofNat {n : Nat} (fits : n ≤ wordLimit) :
    (ofNat n).binary64?.isSome = true := by
  have small : n < 2 ^ 64 := Nat.lt_succ_of_le fits
  obtain ⟨finite, bound, -⟩ := Binary64.absRat_ofNat_bounds small
  obtain ⟨finite_one, absRat_one⟩ := Binary64.absRat_ofNat (show 1 < 2 ^ 53 by decide)
  have product : (Binary64.ofNat n).absRat * (Binary64.ofNat 1).absRat ≤ 2 ^ (65 : Int) := by
    rw [absRat_one]
    exact (Rat.mul_one _).symm ▸ bound
  have in_range := (Binary64.mul_near finite finite_one (by omega) (by omega) product).1
  have scaled : scaleTen (.ofNat n) 0 = some (Binary64.ofNat n * ten 0) := by
    unfold scaleTen
    rw [if_neg (by decide), if_pos (by decide)]
    exact if_pos in_range
  unfold binary64?
  simp only [ofNat, takeDigits_decimalDigits fits, takeDigits]
  exact congrArg Option.isSome (congrArg (Option.map _) scaled)

end Numeral

namespace Json

/-! ## Values that can be written -/

theorem printable_text (s : String) : (text s).Printable := by
  intro t member
  rw [List.mem_singleton.mp member]
  trivial

theorem printable_numeral (n : Numeral) : (numeral n).Printable := by
  intro t member
  rw [List.mem_singleton.mp member]
  trivial

theorem printable_boolean (b : Bool) : (boolean b).Printable := by
  intro t member
  rw [List.mem_singleton.mp member]
  trivial

theorem printable_null : null.Printable := by
  intro t member
  rw [List.mem_singleton.mp member]
  trivial

theorem printable_array {items : List Json} (each : ∀ v ∈ items, v.Printable) :
    (array items).Printable := by
  intro t member
  rcases mem_tokens_array.mp member with rfl | rfl | inner
  · trivial
  · trivial
  · rcases mem_itemTokens inner with rfl | ⟨v, hv, here⟩
    · trivial
    · exact each v hv t here

theorem printable_record {fields : List (String × Json)} (each : ∀ f ∈ fields, f.2.Printable) :
    (record fields).Printable := by
  intro t member
  rcases mem_tokens_object.mp member with rfl | rfl | inner
  · trivial
  · trivial
  · rcases mem_fieldTokens inner with rfl | rfl | ⟨f, hf, here⟩
    · trivial
    · trivial
    · obtain ⟨g, hg, rfl⟩ := List.mem_map.mp hf
      rcases here with rfl | here
      · trivial
      · exact each g hg t here

/-! ## Whole numbers -/

theorem readNat_nat {n bound : Nat} (le : n ≤ bound) : (nat n).readNat bound = .ok n := by
  have spelled : (Numeral.ofNat n).nat? bound = some n := by
    unfold Numeral.nat?
    exact if_pos ⟨rfl, Bool.false_ne_true, le⟩
  unfold nat readNat
  simp only [spelled]
  rfl

theorem readUInt32_nat (n : UInt32) : (nat n.toNat).readUInt32 = .ok n := by
  unfold readUInt32
  rw [readNat_nat (Nat.le_sub_one_of_lt n.toNat_lt_size)]
  exact congrArg Except.ok UInt32.ofNat_toNat

theorem readUInt64_nat (n : UInt64) : (nat n.toNat).readUInt64 = .ok n := by
  unfold readUInt64
  rw [readNat_nat (Nat.le_sub_one_of_lt n.toNat_lt_size)]
  exact congrArg Except.ok UInt64.ofNat_toNat

theorem strict_nat (depth : Nat) (n : UInt32) : (nat n.toNat).strict depth = true := by
  have bound := n.toNat_lt
  have limit : Numeral.wordLimit = 2 ^ 64 - 1 := rfl
  exact Numeral.isSome_binary64?_ofNat (by omega)

end Json

theorem Color.ofJson_toJson (c : Color) : Color.ofJson c.toJson = .ok c := by
  have number : ofNumber? c.value = some c := dif_pos c.small
  unfold ofJson toJson
  rw [Json.readUInt32_nat]
  show (ofNumber? c.value).elim (Except.error (ReadError.color c.value)) Except.ok = _
  rw [number]
  rfl

theorem AllocationKey.ofJson_toJson (k : AllocationKey) : ofJson k.toJson = .ok k := by
  cases k with
  | named name => rfl
  | address a =>
    show AllocationKey.address <$> (Json.nat a.toNat).readUInt32 = _
    rw [Json.readUInt32_nat]
    rfl

theorem AllocationKey.printable_toJson (k : AllocationKey) : k.toJson.Printable := by
  cases k with
  | named name => exact Json.printable_text name
  | address a => exact Json.printable_numeral _

/-! ## Binary64 numbers and times -/

namespace Binary64

variable {x : Binary64}

/-- A number that the text of it is read back as. -/
def Survives (x : Binary64) : Prop :=
  Json.readText (fun _ v => v.readBinary64) x.toJson.compact = .ok x

theorem printable_toJson (x : Binary64) : x.toJson.Printable := by
  unfold toJson
  cases x.wireNumeral? with
  | none => exact Json.printable_null
  | some n => exact Json.printable_numeral n

theorem Survives.read (survives : x.Survives) : x.toJson.readBinary64 = .ok x :=
  (Json.readText_compact (printable_toJson x) _).symm.trans survives

/-- A number that survives is written as a numeral, which is read as the number. -/
theorem survives_iff : x.Survives ↔ ∃ n, x.wireNumeral? = some n ∧ n.binary64? = some x := by
  unfold Survives
  rw [Json.readText_compact (printable_toJson x)]
  unfold toJson
  cases x.wireNumeral? with
  | none => simp [Json.readBinary64]
  | some n =>
    simp only [Option.elim_some, Option.some.injEq, exists_eq_left']
    show n.binary64?.elim _ _ = _ ↔ _
    cases n.binary64? with
    | none => simp
    | some y => simp

theorem Survives.exists_numeral (survives : x.Survives) :
    ∃ n, x.toJson = .numeral n ∧ n.binary64? = some x := by
  obtain ⟨n, written, read⟩ := survives_iff.mp survives
  refine ⟨n, ?_, read⟩
  unfold toJson
  rw [written]
  rfl

theorem Survives.strict (survives : x.Survives) (depth : Nat) :
    x.toJson.strict depth = true := by
  obtain ⟨n, written, spelled⟩ := survives.exists_numeral
  rw [written, Json.strict, spelled]
  rfl

end Binary64

/-- A time whose number of milliseconds is read back as itself, and stands for the time. -/
structure Micros.Survives (t : Micros) : Prop where
  millis : t.millis.Survives
  ofMillis : ofMillis? t.millis = some t

theorem Micros.Survives.read {t : Micros} (survives : t.Survives) :
    Micros.ofJson t.toJson = .ok t := by
  unfold Micros.ofJson Micros.toJson
  rw [survives.millis.read]
  show (ofMillis? t.millis).elim _ _ = _
  rw [survives.ofMillis]
  rfl

end Heapscope
