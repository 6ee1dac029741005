import Heapscope.Workload.Attribute
import Mathlib.Algebra.Group.Nat.Defs
import Mathlib.Data.List.Induction
import Mathlib.Data.List.TakeWhile
import Mathlib.Tactic.Common
import Mathlib.Tactic.MkIffOfInductiveProp

/-!
# How the numerals of attributes are written

A whole number is written with decimal digits, or with hexadecimal ones behind `0x`; a color with
six hexadecimal digits behind `#`, or as a whole number of 24 bits.  Blanks may stand around either.
These are grammars of texts, said without the readers; the readers accept the texts of the grammars
with the numbers that these spell, and no others, but for one more liberty: behind `0x` and `#` they
take a plus sign, too.

* `Spells` -- the number that digits of a base spell;
* `WholeText`, `ColorText` -- the grammars, with or without the plus sign;
* `Wraps` -- a text with blanks around it;
* `Attribute.numerals_read` -- what the two readers accept;
* `Attribute.signed_numerals_read` -- two texts with a sign that they should not accept.
-/

namespace Heapscope

-- what holds of each character of a text is decided by going through the text
attribute [local instance (high)] List.decidableBAll

/-! ## Digits -/

/-- A digit of a base up to sixteen, in either case, and its value. -/
def IsDigit (c : Char) (value : Nat) : Prop :=
  "0123456789abcdef".toList[value]? = some c ∨ "0123456789ABCDEF".toList[value]? = some c

/-- The number that one or more digits of a base spell, the highest digit first. -/
inductive Spells (base : Nat) : List Char → Nat → Prop
  | digit {c : Char} {v : Nat} : IsDigit c v → v < base → Spells base [c] v
  | more {cs : List Char} {n : Nat} {c : Char} {v : Nat} : Spells base cs n → IsDigit c v →
      v < base → Spells base (cs ++ [c]) (base * n + v)

theorem IsDigit.lt {c : Char} {v : Nat} (digit : IsDigit c v) : v < 16 := by
  rcases digit with lower | upper
  · exact (List.getElem?_eq_some_iff.mp lower).1
  · exact (List.getElem?_eq_some_iff.mp upper).1

/-- A digit is one of these characters. -/
theorem IsDigit.mem {c : Char} {v : Nat} (digit : IsDigit c v) :
    c ∈ "0123456789abcdefABCDEF".toList := by
  rcases digit with lower | upper
  · exact (by decide : ∀ c ∈ "0123456789abcdef".toList, c ∈ "0123456789abcdefABCDEF".toList) c
      (List.mem_of_getElem? lower)
  · exact (by decide : ∀ c ∈ "0123456789ABCDEF".toList, c ∈ "0123456789abcdefABCDEF".toList) c
      (List.mem_of_getElem? upper)

/-- A digit is neither a blank nor a sign. -/
theorem IsDigit.graphic {c : Char} {v : Nat} (digit : IsDigit c v) :
    isBlank c = false ∧ c ≠ '+' ∧ c ≠ '-' := by
  have table : ∀ c ∈ "0123456789abcdefABCDEF".toList, isBlank c = false ∧ c ≠ '+' ∧ c ≠ '-' := by
    decide
  exact table c digit.mem

theorem digitValue_of_isDigit {c : Char} {v : Nat} (digit : IsDigit c v) : digitValue c = v := by
  have small := digit.lt
  have table : ∀ v : Fin 16, ∀ c ∈ ["0123456789abcdef".toList[v.val]?,
      "0123456789ABCDEF".toList[v.val]?], c.map digitValue = some v.val := by decide
  have read : (some c).map digitValue = some v := by
    apply table ⟨v, small⟩ (some c)
    rcases digit with lower | upper
    · simp [← lower]
    · simp [← upper]
  simpa using read

theorem isDigit_digitValue {c : Char} (digit : digitValue c < 16) : IsDigit c (digitValue c) := by
  have spelled : ∀ n : Fin 128, digitValue (Char.ofNat n) < 16 →
      "0123456789abcdef".toList[digitValue (Char.ofNat n)]? = some (Char.ofNat n) ∨
        "0123456789ABCDEF".toList[digitValue (Char.ofNat n)]? = some (Char.ofNat n) := by
    decide +kernel
  have ascii : c.toNat < 128 := by
    by_contra large
    have beyond : ∀ d : Char, d.toNat < 128 → ¬c ≤ d := by
      intro d small le
      have le' : c.toNat ≤ d.toNat := le
      omega
    unfold digitValue at digit
    rw [if_neg fun range => beyond '9' (by decide) range.2,
      if_neg fun range => beyond 'f' (by decide) range.2,
      if_neg fun range => beyond 'F' (by decide) range.2] at digit
    omega
  have read := spelled ⟨c.toNat, ascii⟩
  simp only [Char.ofNat_toNat] at read
  exact read digit

namespace Spells

variable {base n : Nat} {cs : List Char}

theorem ne_nil (spells : Spells base cs n) : cs ≠ [] := by
  cases spells with
  | digit => simp
  | more => simp

theorem isDigit_of_mem (spells : Spells base cs n) :
    ∀ c ∈ cs, ∃ v, IsDigit c v ∧ v < base := by
  induction spells with
  | digit digit small =>
    intro c member
    rw [List.mem_singleton.mp member]
    exact ⟨_, digit, small⟩
  | more _ digit small ih =>
    intro c member
    rcases List.mem_append.mp member with front | last
    · exact ih c front
    · rw [List.mem_singleton.mp last]
      exact ⟨_, digit, small⟩

end Spells

/-- Reading digits finds the number that they spell, and there is one when they are digits. -/
theorem digitsValue?_eq_some_iff {base : Nat} (small : base ≤ 16) {cs : List Char} {n : Nat} :
    digitsValue? base cs = some n ↔ Spells base cs n := by
  constructor
  · intro read
    unfold digitsValue? at read
    split at read
    · rename_i digits
      obtain ⟨nonempty, digits⟩ := digits
      rw [List.all_eq_true] at digits
      cases read
      induction cs using List.reverseRecOn with
      | nil => exact absurd rfl nonempty
      | append_singleton cs c ih =>
        have last : digitValue c < base := of_decide_eq_true (digits c (by simp))
        have digit := isDigit_digitValue (Nat.lt_of_lt_of_le last small)
        rw [List.foldl_append]
        by_cases single : cs = []
        · subst single
          simpa using Spells.digit digit last
        · exact .more (ih single fun d member => digits d (by simp [member])) digit last
    · cases read
  · intro spells
    unfold digitsValue?
    have digits : cs ≠ [] ∧ cs.all fun c => digitValue c < base := by
      refine ⟨spells.ne_nil, List.all_eq_true.mpr ?_⟩
      intro c member
      obtain ⟨v, digit, lt⟩ := spells.isDigit_of_mem c member
      rw [digitValue_of_isDigit digit]
      exact decide_eq_true lt
    rw [if_pos digits]
    clear digits
    induction spells with
    | digit digit => simp [digitValue_of_isDigit digit]
    | more _ digit _ ih =>
      rw [List.foldl_append, Option.some.inj ih]
      simp [digitValue_of_isDigit digit]

/-! ## Grammars -/

/-- Nothing stands in front of hexadecimal digits. -/
def unsigned : List (List Char) := [[]]

/-- A plus sign may stand in front of hexadecimal digits. -/
def plusSigned : List (List Char) := [[], ['+']]

/-- A whole number of 32 bits as a text: decimal digits, or hexadecimal ones behind `0x`, with one
of the given signs in between. -/
@[mk_iff]
inductive WholeText (signs : List (List Char)) : List Char → Nat → Prop
  | decimal {cs : List Char} {n : Nat} : Spells 10 cs n → n ≤ 2 ^ 32 - 1 → WholeText signs cs n
  | hexadecimal {x : Char} {sign cs : List Char} {n : Nat} : x = 'x' ∨ x = 'X' → sign ∈ signs →
      Spells 16 cs n → n ≤ 2 ^ 32 - 1 → WholeText signs ('0' :: x :: (sign ++ cs)) n

/-- A color as a text: six places behind `#`, which are hexadecimal digits and one of the given
signs, or a whole number of 24 bits. -/
@[mk_iff]
inductive ColorText (signs : List (List Char)) : List Char → Nat → Prop
  | sixPlaces {sign cs : List Char} {n : Nat} : sign ∈ signs → (sign ++ cs).length = 6 →
      Spells 16 cs n → ColorText signs ('#' :: (sign ++ cs)) n
  | whole {cs : List Char} {n : Nat} : WholeText signs cs n → n ≤ 0xffffff → ColorText signs cs n

/-- A text with blanks around it. -/
def Wraps (value text : List Char) : Prop :=
  ∃ front back, value = front ++ (text ++ back) ∧ (∀ c ∈ front, isBlank c = true) ∧
    ∀ c ∈ back, isBlank c = true

/-! ## Blanks -/

/-- What is left when the blanks are taken away is wrapped in them. -/
theorem wraps_trim (value : List Char) : Wraps value (trim value) := by
  refine ⟨value.takeWhile isBlank, ((value.dropWhile isBlank).reverse.takeWhile isBlank).reverse,
    ?_, ?_, ?_⟩
  · have back := List.takeWhile_append_dropWhile (p := isBlank)
      (l := (value.dropWhile isBlank).reverse)
    have whole := congrArg List.reverse back
    rw [List.reverse_append, List.reverse_reverse] at whole
    unfold trim trimRight
    rw [whole, List.takeWhile_append_dropWhile]
  · intro c member
    exact List.mem_takeWhile_imp member
  · intro c member
    exact List.mem_takeWhile_imp (List.mem_reverse.mp member)

/-- A text without blanks is found between the blanks around it. -/
theorem trim_of_wraps {value text : List Char} (wraps : Wraps value text)
    (solid : ∀ c ∈ text, isBlank c = false) : trim value = text := by
  obtain ⟨front, back, rfl, blank_front, blank_back⟩ := wraps
  have keep : ∀ cs : List Char, (∀ c ∈ cs, isBlank c = false) → cs.dropWhile isBlank = cs := by
    intro cs solid
    cases cs with
    | nil => rfl
    | cons c cs => simp [solid c]
  have drop_back : ((text ++ back).reverse.dropWhile isBlank).reverse = text := by
    rw [List.reverse_append, List.dropWhile_append_of_pos (by simpa using blank_back),
      keep _ (by simpa using solid), List.reverse_reverse]
  unfold trim trimRight
  rw [List.dropWhile_append_of_pos blank_front]
  cases text with
  | nil =>
    have drop_all : back.dropWhile isBlank = [] := List.dropWhile_eq_nil_iff.mpr blank_back
    simp [drop_all]
  | cons c text =>
    rw [List.cons_append, List.dropWhile_cons_of_neg (by simp [solid c])]
    exact drop_back

/-! ## The readers -/

theorem Spells.dropPlus_eq {base n : Nat} {cs : List Char} (spells : Spells base cs n) :
    dropPlus cs = cs := by
  cases cs with
  | nil => rfl
  | cons c cs =>
    obtain ⟨v, digit, -⟩ := spells.isDigit_of_mem c List.mem_cons_self
    obtain ⟨-, noPlus, -⟩ := digit.graphic
    unfold dropPlus
    split
    · rename_i same
      exact absurd (List.cons.inj same).1 noPlus
    · rfl

/-- A literal is digits of the base, possibly behind a plus sign. -/
theorem wholeLiteral?_eq_some_iff {base bound : Nat} (small : base ≤ 16) {cs : List Char}
    {n : Nat} : wholeLiteral? base bound cs = some n ↔
      ∃ sign ∈ plusSigned, ∃ ds, cs = sign ++ ds ∧ Spells base ds n ∧ n ≤ bound := by
  have read : wholeLiteral? base bound cs = some n ↔ Spells base (dropPlus cs) n ∧ n ≤ bound := by
    rw [← digitsValue?_eq_some_iff small]
    unfold wholeLiteral?
    cases digitsValue? base (dropPlus cs) with
    | none => simp
    | some m =>
      show (if m ≤ bound then some m else none) = some n ↔ some m = some n ∧ n ≤ bound
      constructor
      · intro bounded
        split at bounded
        · rename_i le
          cases bounded
          exact ⟨rfl, le⟩
        · cases bounded
      · rintro ⟨⟨⟩, le⟩
        exact if_pos le
  rw [read]
  constructor
  · rintro ⟨spells, le⟩
    unfold dropPlus at spells
    split at spells
    · exact ⟨['+'], by simp [plusSigned], _, rfl, spells, le⟩
    · exact ⟨[], by simp [plusSigned], _, rfl, spells, le⟩
  · rintro ⟨sign, member, ds, rfl, spells, le⟩
    simp only [plusSigned, List.mem_cons, List.not_mem_nil, or_false] at member
    rcases member with rfl | rfl
    · exact ⟨spells.dropPlus_eq.symm ▸ spells, le⟩
    · exact ⟨spells, le⟩

/-! ## Characters of the grammars -/

/-- A character that a text may have: a digit, a mark, or part of a sign. -/
def IsPlace (signs : List (List Char)) (c : Char) : Prop :=
  (∃ v, IsDigit c v) ∨ c ∈ ['x', 'X', '#'] ∨ ∃ sign ∈ signs, c ∈ sign

section Places

variable {signs : List (List Char)} {cs : List Char} {n : Nat} {c : Char}

theorem Spells.isPlace {base : Nat} (spells : Spells base cs n) : ∀ c ∈ cs, IsPlace signs c := by
  intro c member
  obtain ⟨v, digit, -⟩ := spells.isDigit_of_mem c member
  exact .inl ⟨v, digit⟩

theorem isPlace_append {sign : List Char} (member : sign ∈ signs)
    (places : ∀ c ∈ cs, IsPlace signs c) : ∀ c ∈ sign ++ cs, IsPlace signs c :=
  List.forall_mem_append.mpr ⟨fun _ inside => .inr (.inr ⟨sign, member, inside⟩), places⟩

theorem WholeText.isPlace (text : WholeText signs cs n) : ∀ c ∈ cs, IsPlace signs c := by
  cases text with
  | decimal spells => exact spells.isPlace
  | hexadecimal isMark member spells =>
    refine List.forall_mem_cons.mpr ⟨.inl ⟨0, .inl rfl⟩, List.forall_mem_cons.mpr ⟨?_, ?_⟩⟩
    · rcases isMark with rfl | rfl <;> exact .inr (.inl (by decide))
    · exact isPlace_append member spells.isPlace

theorem ColorText.isPlace (text : ColorText signs cs n) : ∀ c ∈ cs, IsPlace signs c := by
  cases text with
  | sixPlaces member _ spells =>
    exact List.forall_mem_cons.mpr
      ⟨.inr (.inl (by decide)), isPlace_append member spells.isPlace⟩
  | whole text => exact text.isPlace

theorem IsPlace.not_blank (place : IsPlace plusSigned c) : isBlank c = false := by
  rcases place with ⟨v, digit⟩ | mark | ⟨sign, member, inside⟩
  · exact digit.graphic.1
  · exact (by decide : ∀ c ∈ ['x', 'X', '#'], isBlank c = false) c mark
  · exact (by decide : ∀ sign ∈ plusSigned, ∀ c ∈ sign, isBlank c = false) sign member c inside

/-- A plus or a minus is the sign that the grammar allows, if it stands anywhere. -/
theorem IsPlace.mem_sign (place : IsPlace signs c) (isSign : c = '+' ∨ c = '-') :
    ∃ sign ∈ signs, c ∈ sign := by
  rcases place with ⟨v, digit⟩ | mark | sign
  · exact absurd isSign (not_or.mpr digit.graphic.2)
  · rcases isSign with rfl | rfl <;> simp at mark
  · exact sign

end Places

namespace Attribute

theorem allDigits_of_spells {cs : List Char} {n : Nat} (spells : Spells 10 cs n) :
    allDigits cs = true := by
  have table : ∀ v : Fin 10,
      ("0123456789abcdef".toList[v.val]?.all fun c => '0' ≤ c && c ≤ '9') = true ∧
        ("0123456789ABCDEF".toList[v.val]?.all fun c => '0' ≤ c && c ≤ '9') = true := by decide
  refine List.all_eq_true.mpr fun c member => ?_
  obtain ⟨v, lower | upper, small⟩ := spells.isDigit_of_mem c member
  · have digit := (table ⟨v, small⟩).1
    rwa [lower] at digit
  · have digit := (table ⟨v, small⟩).2
    rwa [upper] at digit

/-- A literal that is taken as a word is the number of the word. -/
theorem ofNat_wholeLiteral?_eq_some_iff {base : Nat} {cs : List Char} {v : UInt32} :
    UInt32.ofNat <$> wholeLiteral? base wordLimit cs = some v
      ↔ wholeLiteral? base wordLimit cs = some v.toNat := by
  have bounded : ∀ n, wholeLiteral? base wordLimit cs = some n → n < 2 ^ 32 := by
    intro n read
    unfold wholeLiteral? at read
    obtain ⟨m, -, le⟩ := Option.bind_eq_some_iff.mp read
    split at le
    · rename_i fits
      cases le
      exact Nat.lt_succ_of_le fits
    · cases le
  constructor
  · intro read
    obtain ⟨n, found, rfl⟩ := Option.map_eq_some_iff.mp read
    rw [found, UInt32.toNat_ofNat', Nat.mod_eq_of_lt (bounded n found)]
  · intro read
    rw [read]
    simp

theorem trimmedNumber?_eq_some_iff {cs : List Char} {v : UInt32} :
    trimmedNumber? cs = some v ↔ WholeText plusSigned cs v.toNat := by
  have bound := v.toNat_lt
  have hexadecimal : ∀ (x : Char) (hex : List Char), x = 'x' ∨ x = 'X' →
      (UInt32.ofNat <$> wholeLiteral? 16 wordLimit hex = some v
        ↔ WholeText plusSigned ('0' :: x :: hex) v.toNat) := by
    intro x hex isMark
    rw [ofNat_wholeLiteral?_eq_some_iff, wholeLiteral?_eq_some_iff (by decide), wholeText_iff]
    constructor
    · rintro ⟨sign, member, ds, rfl, spells, le⟩
      exact .inr ⟨x, sign, ds, isMark, member, spells, le, rfl⟩
    · rintro (⟨spells, -⟩ | ⟨_, sign, ds, -, member, spells, le, same⟩)
      · -- neither letter is a decimal digit
        have digits := allDigits_of_spells spells
        rcases isMark with rfl | rfl <;> simp [allDigits] at digits
      · cases same
        exact ⟨sign, member, ds, rfl, spells, le⟩
  unfold trimmedNumber?
  split
  · exact hexadecimal 'x' _ (.inl rfl)
  · exact hexadecimal 'X' _ (.inr rfl)
  · rename_i noSmall noLarge
    rw [wholeText_iff]
    constructor
    · intro read
      split at read
      · rename_i digits
        rw [ofNat_wholeLiteral?_eq_some_iff, wholeLiteral?_eq_some_iff (by decide)] at read
        obtain ⟨sign, member, ds, rfl, spells, le⟩ := read
        simp only [plusSigned, List.mem_cons, List.not_mem_nil, or_false] at member
        rcases member with rfl | rfl
        · exact .inl ⟨spells, le⟩
        · simp [allDigits] at digits
      · cases read
    · rintro (⟨spells, le⟩ | ⟨x, sign, ds, isMark, -, -, -, rfl⟩)
      · rw [if_pos (allDigits_of_spells spells), ofNat_wholeLiteral?_eq_some_iff,
          wholeLiteral?_eq_some_iff (by decide)]
        exact ⟨[], by simp [plusSigned], cs, rfl, spells, le⟩
      · rcases isMark with rfl | rfl
        · exact absurd rfl (noSmall _)
        · exact absurd rfl (noLarge _)

theorem ofNumber?_eq_some_iff {n : UInt32} {c : Color} :
    Color.ofNumber? n = some c ↔ n = c.value := by
  obtain ⟨value, small⟩ := c
  unfold Color.ofNumber?
  constructor
  · intro made
    split at made
    · exact congrArg Color.value (Option.some.inj made)
    · cases made
  · rintro rfl
    exact dif_pos small

theorem color?_eq_some_iff {value : String} {c : Color} :
    color? value = some c ↔ trimmedColor? (trim value.toList) = some c.value := by
  have read : color? value = trimmedColor? (trim value.toList) >>= Color.ofNumber? := rfl
  rw [read]
  cases trimmedColor? (trim value.toList) with
  | none => simp
  | some n => simpa using ofNumber?_eq_some_iff

theorem trimmedColor?_eq_some_iff {cs : List Char} {c : Color} :
    trimmedColor? cs = some c.value ↔ ColorText plusSigned cs c.value.toNat := by
  have small := c.small
  have noWhole : ∀ hex : List Char, ¬WholeText plusSigned ('#' :: hex) c.value.toNat := by
    intro hex text
    rcases (wholeText_iff ..).mp text with ⟨spells, -⟩ | ⟨x, sign, ds, -, -, -, -, same⟩
    · have digits := allDigits_of_spells spells
      simp [allDigits] at digits
    · cases same
  unfold trimmedColor?
  rw [colorText_iff]
  split
  · rename_i hex
    constructor
    · intro read
      split at read
      · rename_i six
        rw [ofNat_wholeLiteral?_eq_some_iff, wholeLiteral?_eq_some_iff (by decide)] at read
        obtain ⟨sign, member, ds, rfl, spells, -⟩ := read
        exact .inl ⟨sign, ds, member, six, spells, rfl⟩
      · cases read
    · rintro (⟨sign, ds, member, six, spells, same⟩ | ⟨text, -⟩)
      · cases same
        have word : c.value.toNat ≤ wordLimit := Nat.le_trans small (by decide)
        rw [if_pos six, ofNat_wholeLiteral?_eq_some_iff, wholeLiteral?_eq_some_iff (by decide)]
        exact ⟨sign, member, ds, rfl, spells, word⟩
      · exact absurd text (noWhole hex)
  · rename_i noMark
    rw [trimmedNumber?_eq_some_iff]
    constructor
    · intro text
      exact .inr ⟨text, small⟩
    · rintro (⟨sign, ds, -, -, -, rfl⟩ | ⟨text, -⟩)
      · exact absurd rfl (noMark _)
      · exact text

/-! ## Values -/

/-- A value is a text of a grammar, blanks around it apart, that stands for a number. -/
def Writes (grammar : List Char → Nat → Prop) (value : String) (n : Nat) : Prop :=
  ∃ text, Wraps value.toList text ∧ grammar text n

theorem writes_iff_trim {grammar : List Char → Nat → Prop} {value : String} {n : Nat}
    (solid : ∀ text, grammar text n → ∀ c ∈ text, isBlank c = false) :
    Writes grammar value n ↔ grammar (trim value.toList) n := by
  constructor
  · rintro ⟨text, wraps, written⟩
    rw [trim_of_wraps wraps (solid text written)]
    exact written
  · intro written
    exact ⟨_, wraps_trim _, written⟩

theorem number?_reads {value : String} {v : UInt32} :
    number? value = some v ↔ Writes (WholeText plusSigned) value v.toNat := by
  rw [writes_iff_trim, ← trimmedNumber?_eq_some_iff]
  · rfl
  · intro text written
    exact fun c member => (written.isPlace c member).not_blank

theorem color?_reads {value : String} {c : Color} :
    color? value = some c ↔ Writes (ColorText plusSigned) value c.value.toNat := by
  rw [writes_iff_trim, ← trimmedColor?_eq_some_iff, color?_eq_some_iff]
  intro text written
  exact fun c member => (written.isPlace c member).not_blank

theorem mem_plusSigned_iff {sign : List Char} (noPlus : '+' ∉ sign) :
    sign ∈ plusSigned ↔ sign ∈ unsigned := by
  simp only [plusSigned, unsigned, List.mem_cons, List.not_mem_nil, or_false]
  refine or_iff_left ?_
  rintro rfl
  simp at noPlus

/-- Without a plus sign the two grammars are the same. -/
theorem wholeText_plusSigned_iff {cs : List Char} {n : Nat} (noPlus : '+' ∉ cs) :
    WholeText plusSigned cs n ↔ WholeText unsigned cs n := by
  rw [wholeText_iff, wholeText_iff]
  refine or_congr_right (exists_congr fun x => exists_congr fun sign => exists_congr fun ds => ?_)
  constructor
  · rintro ⟨isMark, member, spells, le, rfl⟩
    exact ⟨isMark, (mem_plusSigned_iff (by simp_all)).mp member, spells, le, rfl⟩
  · rintro ⟨isMark, member, spells, le, rfl⟩
    exact ⟨isMark, (mem_plusSigned_iff (by simp_all)).mpr member, spells, le, rfl⟩

theorem colorText_plusSigned_iff {cs : List Char} {n : Nat} (noPlus : '+' ∉ cs) :
    ColorText plusSigned cs n ↔ ColorText unsigned cs n := by
  rw [colorText_iff, colorText_iff, wholeText_plusSigned_iff noPlus]
  refine or_congr_left (exists_congr fun sign => exists_congr fun ds => ?_)
  constructor
  · rintro ⟨member, six, spells, rfl⟩
    exact ⟨(mem_plusSigned_iff (by simp_all)).mp member, six, spells, rfl⟩
  · rintro ⟨member, six, spells, rfl⟩
    exact ⟨(mem_plusSigned_iff (by simp_all)).mpr member, six, spells, rfl⟩

/-- A value with a sign that the grammar does not allow is not written in it. -/
theorem not_writes_of_sign {signs : List (List Char)} {grammar : List Char → Nat → Prop}
    (places : ∀ {text n}, grammar text n → ∀ c ∈ text, IsPlace signs c) {value : String} {n : Nat}
    {c : Char} (isSign : c = '+' ∨ c = '-') (other : ∀ sign ∈ signs, c ∉ sign)
    (member : c ∈ value.toList) : ¬Writes grammar value n := by
  have graphic : isBlank c = false := by
    rcases isSign with rfl | rfl <;> decide
  rintro ⟨text, ⟨front, back, eq, blank_front, blank_back⟩, written⟩
  rw [eq, List.mem_append, List.mem_append] at member
  rcases member with inFront | inText | inBack
  · simp [blank_front c inFront] at graphic
  · obtain ⟨sign, given, inside⟩ := (places written c inText).mem_sign isSign
    exact other sign given inside
  · simp [blank_back c inBack] at graphic

/-- Grammars that agree on texts without a plus sign agree on such values. -/
theorem writes_congr {g g' : List Char → Nat → Prop} {value : String} {n : Nat}
    (noPlus : '+' ∉ value.toList) (same : ∀ text, '+' ∉ text → (g text n ↔ g' text n)) :
    Writes g value n ↔ Writes g' value n := by
  have outside : ∀ text, Wraps value.toList text → '+' ∉ text := by
    rintro text ⟨front, back, eq, -, -⟩ member
    exact noPlus (eq ▸ List.mem_append_right front (List.mem_append_left back member))
  exact exists_congr fun text => and_congr_right fun wraps => same text (outside text wraps)

/-- What the readers of whole numbers and of colors accept.  Blanks around a value are ignored.  A
value without a plus sign is accepted exactly when it is a text of the grammar, with the number that
the text stands for; a plus sign is accepted in one place only, in front of hexadecimal digits and
behind their mark; and a value with a minus sign is never accepted. -/
theorem numerals_read (value : String) :
    (∀ v, number? value = some v ↔ Writes (WholeText plusSigned) value v.toNat) ∧
    (∀ c, color? value = some c ↔ Writes (ColorText plusSigned) value c.value.toNat) ∧
    ('+' ∉ value.toList →
      (∀ v, number? value = some v ↔ Writes (WholeText unsigned) value v.toNat) ∧
      ∀ c, color? value = some c ↔ Writes (ColorText unsigned) value c.value.toNat) ∧
    ('-' ∈ value.toList → number? value = none ∧ color? value = none) := by
  refine ⟨fun v => number?_reads, fun c => color?_reads, fun noPlus => ⟨?plain, ?plainColor⟩,
    fun minus => ⟨?minus, ?minusColor⟩⟩
  case plain =>
    intro v
    rw [number?_reads]
    exact writes_congr noPlus fun text none => wholeText_plusSigned_iff none
  case plainColor =>
    intro c
    rw [color?_reads]
    exact writes_congr noPlus fun text none => colorText_plusSigned_iff none
  case minus =>
    rw [Option.eq_none_iff_forall_ne_some]
    intro v read
    exact not_writes_of_sign WholeText.isPlace (.inr rfl) (by decide) minus (number?_reads.mp read)
  case minusColor =>
    rw [Option.eq_none_iff_forall_ne_some]
    intro c read
    exact not_writes_of_sign ColorText.isPlace (.inr rfl) (by decide) minus (color?_reads.mp read)

theorem numerals_read_of_hexadecimal :
    ('+' ∉ "\t0Xff ".toList ∧ Writes (WholeText unsigned) "\t0Xff " 255 ∧
      Writes (ColorText unsigned) "\t0Xff " 255) ∧
    '-' ∈ "#-12345".toList ∧ number? "#-12345" = none ∧ color? "#-12345" = none := by
  have plain : '+' ∉ "\t0Xff ".toList := by decide
  have minus : '-' ∈ "#-12345".toList := by decide
  obtain ⟨-, -, accepts, -⟩ := numerals_read "\t0Xff "
  obtain ⟨-, -, -, refuses⟩ := numerals_read "#-12345"
  obtain ⟨number, color⟩ := accepts plain
  exact ⟨⟨plain, (number 255).mp (by decide), (color ⟨255, by decide⟩).mp (by decide)⟩,
    minus, refuses minus⟩

/-- A plus sign in front of hexadecimal digits is accepted, although no text of the grammars has
one. -/
theorem signed_numerals_read :
    (number? "0x+ff" = some 255 ∧ ¬Writes (WholeText unsigned) "0x+ff" 255) ∧
    color? "#+12345" = some ⟨0x12345, by decide⟩ ∧
      ¬Writes (ColorText unsigned) "#+12345" 0x12345 := by
  refine ⟨⟨by decide, ?number⟩, by decide, ?color⟩
  case number => exact not_writes_of_sign WholeText.isPlace (.inl rfl) (by decide) (by decide)
  case color => exact not_writes_of_sign ColorText.isPlace (.inl rfl) (by decide) (by decide)

end Attribute

end Heapscope
