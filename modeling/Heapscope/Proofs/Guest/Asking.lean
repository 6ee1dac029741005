import Heapscope.Proofs.Guest.Memory
import Heapscope.Proofs.Guest.Uses
import Mathlib.Algebra.Group.Int.Defs
import Mathlib.Algebra.Group.Nat.Defs

/-!
# What bindings ask for, by the memory of the guest

A binding that takes a text says where in memory the text lies.  The text is there when the span
lies in memory that the guest shares, and its bytes are the UTF-8 of the text.  So it is seen from
memory alone what note and what message a binding asks for, or how it is misused.

* `Surroundings.Inside`, `Surroundings.Holds` -- a span of shared memory, and the text in it;
* `Binding.Asks`, `Binding.Misuses` -- what a binding asks for, and how it is misused;
* `Binding.outcome_ok_iff`, `Binding.outcome_error_iff` -- nothing else comes of it.
-/

namespace Heapscope

/-! ## Texts and colors -/

/-- A span lies in memory that a guest shares with the bindings. -/
structure Surroundings.Inside (s : Surroundings) (m : Machine) (address length : Int) : Prop where
  shares : s.sharesMemory = true
  start : 0 ≤ address
  size : 0 ≤ length
  stop : address + length ≤ m.memory.size

/-- The bytes of a span are the UTF-8 of a text. -/
structure Surroundings.Holds (s : Surroundings) (m : Machine) (address length : Int32)
    (text : String) : Prop where
  inside : s.Inside m address.toInt length.toInt
  bytes : bytesOfText text
    = (List.range' address.toInt.toNat length.toInt.toNat).map m.memory.byte

theorem natural?_eq_some_iff {n : Int32} {k : Nat} :
    natural? n = some k ↔ 0 ≤ n.toInt ∧ n.toInt.toNat = k := by
  have negative : n < 0 ↔ n.toInt < 0 := by
    rw [Int32.lt_iff_toInt_lt, Int32.toInt_zero]
  unfold natural?
  rw [← Int32.toNat_toInt]
  by_cases below : n < 0
  · rw [if_pos below]
    rw [negative] at below
    simp only [reduceCtorEq, false_iff]
    omega
  · rw [if_neg below, Option.some_inj]
    rw [negative] at below
    exact ⟨fun eq => ⟨by omega, eq⟩, fun both => both.2⟩

theorem natural?_eq_none_iff {n : Int32} : natural? n = none ↔ n.toInt < 0 := by
  rw [Option.eq_none_iff_forall_ne_some]
  constructor
  · intro none_
    by_contra notBelow
    exact none_ n.toInt.toNat (natural?_eq_some_iff.mpr ⟨by omega, rfl⟩)
  · intro below k some_
    have notBelow := (natural?_eq_some_iff.mp some_).1
    omega

namespace Surroundings

variable {s : Surroundings} {m : Machine} {address length : Int32}

theorem bytes?_of_inside (inside : s.Inside m address.toInt length.toInt) :
    s.bytes? m address length
      = some ((List.range' address.toInt.toNat length.toInt.toNat).map m.memory.byte) := by
  obtain ⟨shares, start, size, stop⟩ := inside
  unfold bytes?
  rw [natural?_eq_some_iff.mpr ⟨start, rfl⟩, natural?_eq_some_iff.mpr ⟨size, rfl⟩]
  simp only [Option.bind_eq_bind, Option.bind_some, if_pos shares]
  exact LinearMemory.read?_of_fits (by omega)

theorem bytes?_of_not_inside (outside : ¬s.Inside m address.toInt length.toInt) :
    s.bytes? m address length = none := by
  unfold bytes?
  cases first : natural? address with
  | none => rfl
  | some a =>
    obtain ⟨start, rfl⟩ := natural?_eq_some_iff.mp first
    cases count : natural? length with
    | none => rfl
    | some n =>
      obtain ⟨size, rfl⟩ := natural?_eq_some_iff.mp count
      simp only [Option.bind_eq_bind, Option.bind_some]
      split
      · rename_i shares
        unfold LinearMemory.read?
        rw [if_neg]
        intro holds
        have fits := LinearMemory.holds_iff.mp holds
        exact outside ⟨shares, start, size, by omega⟩
      · rfl

theorem fromUTF8?_bytesOfText (text : String) :
    String.fromUTF8? ⟨(bytesOfText text).toArray⟩ = some text := by
  unfold String.fromUTF8? bytesOfText
  exact dif_pos text.isValidUTF8

theorem text_of_holds {text : String} (holds : s.Holds m address length text) (name : String) :
    s.text m name address length = .ok text := by
  unfold Surroundings.text
  rw [bytes?_of_inside holds.inside, ← holds.bytes]
  simp only [fromUTF8?_bytesOfText]
  rfl

theorem text_of_not_inside (outside : ¬s.Inside m address.toInt length.toInt) (name : String) :
    s.text m name address length = .error (.unreadable name address length) := by
  unfold Surroundings.text
  rw [bytes?_of_not_inside outside]

theorem text_of_not_holds (inside : s.Inside m address.toInt length.toInt)
    (noText : ∀ text, ¬s.Holds m address length text) (name : String) :
    s.text m name address length = .error (.notText name address) := by
  unfold Surroundings.text
  rw [bytes?_of_inside inside]
  simp only
  generalize bytes : (List.range' _ _).map m.memory.byte = span
  unfold String.fromUTF8?
  by_cases valid : ByteArray.IsValidUTF8 ⟨span.toArray⟩
  · refine absurd ⟨inside, ?_⟩ (noText (String.fromUTF8 ⟨span.toArray⟩ valid))
    rw [bytes]
    rfl
  · rw [dif_neg valid]
    rfl

/-- A span holds a text, or it does not lie in memory, or its bytes are no text. -/
theorem holds_or (s : Surroundings) (m : Machine) (address length : Int32) :
    (∃ text, s.Holds m address length text) ∨ ¬s.Inside m address.toInt length.toInt ∨
      (s.Inside m address.toInt length.toInt ∧ ∀ text, ¬s.Holds m address length text) := by
  by_cases inside : s.Inside m address.toInt length.toInt
  · by_cases holds : ∃ text, s.Holds m address length text
    · exact .inl holds
    · exact .inr (.inr ⟨inside, fun text holds' => holds ⟨text, holds'⟩⟩)
  · exact .inr (.inl inside)

theorem write?_eq_none_iff {bytes : List UInt8} :
    s.write? m address bytes = none ↔ ¬s.Inside m address.toInt bytes.length := by
  unfold Surroundings.write?
  cases first : natural? address with
  | none =>
    have negative := natural?_eq_none_iff.mp first
    simp only [Option.bind_eq_bind, Option.bind_none, true_iff]
    intro inside
    have start := inside.start
    omega
  | some a =>
    obtain ⟨start, rfl⟩ := natural?_eq_some_iff.mp first
    simp only [Option.bind_eq_bind, Option.bind_some]
    unfold LinearMemory.write?
    by_cases shares : s.sharesMemory = true
    · by_cases fits : m.memory.holds address.toInt.toNat bytes.length = true
      · rw [if_pos shares, if_pos fits]
        rw [LinearMemory.holds_iff] at fits
        simp only [reduceCtorEq, false_iff, not_not]
        exact ⟨shares, start, by omega, by omega⟩
      · rw [if_pos shares, if_neg fits]
        rw [LinearMemory.holds_iff] at fits
        simp only [true_iff]
        intro inside
        have stop := inside.stop
        omega
    · rw [if_neg shares]
      simp only [true_iff]
      exact fun inside => shares inside.shares

end Surroundings

theorem colorOf_of_eq {c : Color} {value : Int32} (eq : (c.value.toNat : Int) = value.toInt)
    (name : String) : colorOf name value = .ok c := by
  have word : UInt32.ofNat value.toInt.toNat = c.value := by
    rw [← eq, Int.toNat_natCast, UInt32.ofNat_toNat]
  unfold colorOf
  rw [natural?_eq_some_iff.mpr ⟨by omega, rfl⟩, Option.bind_some, word]
  unfold Color.ofNumber?
  rw [dif_pos c.small]
  rfl

theorem colorOf_of_not {value : Int32} (outside : ¬(0 ≤ value.toInt ∧ value.toInt < 2 ^ 24))
    (name : String) : colorOf name value = .error (.color name value) := by
  unfold colorOf
  cases found : natural? value with
  | none => rfl
  | some n =>
    obtain ⟨start, rfl⟩ := natural?_eq_some_iff.mp found
    have bound := value.toInt_lt
    have word : (UInt32.ofNat value.toInt.toNat).toNat = value.toInt.toNat := by
      rw [UInt32.toNat_ofNat', Nat.mod_eq_of_lt (by omega)]
    rw [Option.bind_some]
    unfold Color.ofNumber?
    rw [dif_neg (by omega)]
    rfl

/-- A number of 24 bits is a color. -/
theorem exists_color {value : Int32} (inside : 0 ≤ value.toInt ∧ value.toInt < 2 ^ 24) :
    ∃ c : Color, (c.value.toNat : Int) = value.toInt := by
  have word : (UInt32.ofNat value.toInt.toNat).toNat = value.toInt.toNat := by
    rw [UInt32.toNat_ofNat', Nat.mod_eq_of_lt (by omega)]
  refine ⟨⟨.ofNat value.toInt.toNat, by omega⟩, ?_⟩
  show ((UInt32.ofNat value.toInt.toNat).toNat : Int) = _
  omega

/-! ## Bindings -/

namespace Binding

/-- How many bytes of a setting are copied into a room. -/
def copied (value : String) (room : Int32) : Nat := min room.toInt.toNat value.toUTF8.size

/-- The span that a binding reads a text from. -/
def textAt? : Binding → Option (Int32 × Int32)
  | optionLength address length | readOption address length _ _ | annotateText _ address length
  | log _ address length => some (address, length)
  | _ => none

/-- The number that a binding takes for a color. -/
def paint? : Binding → Option Int32
  | annotateRange _ _ color _ | annotateColor _ _ color => some color
  | _ => none

/-- The note and the message that a binding asks for, when nothing is wrong with it. -/
inductive Asks (s : Surroundings) (m : Machine) :
    Binding → Option Note → Option LogEntry → Prop where
  | totalMemory : Asks s m .totalMemory none none
  | threadId : Asks s m .threadId none none
  | isDebug : Asks s m .isDebug none none
  | optionLength {name length : Int32} {key : String} (holds : s.Holds m name length key) :
      Asks s m (.optionLength name length) none none
  | readOption {name length target room : Int32} {key : String} (holds : s.Holds m name length key)
      (fits : ∀ value, s.options.extra.find? key = some value →
        s.Inside m target.toInt (copied value room)) :
      Asks s m (.readOption name length target room) none none
  | annotateRange {address size color : Int32} {alpha : Binary64} {c : Color}
      (eq : (c.value.toNat : Int) = color.toInt) :
      Asks s m (.annotateRange address size color alpha)
        (some ⟨.add .range, address.toUInt32, some size.toUInt32, none, none, some c, some alpha⟩)
        none
  | annotateText {address start length : Int32} {text : String}
      (holds : s.Holds m start length text) :
      Asks s m (.annotateText address start length)
        (some ⟨.add .text, address.toUInt32, none, none, some text, none, none⟩) none
  | annotatePointer {address target : Int32} :
      Asks s m (.annotatePointer address target)
        (some ⟨.add .pointer, address.toUInt32, none, some target.toUInt32, none, none, none⟩) none
  | annotateColor {address size color : Int32} {c : Color}
      (eq : (c.value.toNat : Int) = color.toInt) :
      Asks s m (.annotateColor address size color)
        (some ⟨.add .color, address.toUInt32, some size.toUInt32, none, none, some c, none⟩) none
  | remove {mark : Mark} {address : Int32} :
      Asks s m (.remove mark address)
        (some ⟨.remove mark, address.toUInt32, none, none, none, none, none⟩) none
  | log {level : LogLevel} {start length : Int32} {text : String}
      (holds : s.Holds m start length text) :
      Asks s m (.log level start length) none (some ⟨level, text⟩)

/-- How a binding is misused. -/
inductive Misuses (s : Surroundings) (m : Machine) : Binding → Misuse → Prop where
  | color {b : Binding} {value : Int32} (paints : b.paint? = some value)
      (outside : ¬(0 ≤ value.toInt ∧ value.toInt < 2 ^ 24)) : Misuses s m b (.color b.name value)
  | unreadable {b : Binding} {address length : Int32} (reads : b.textAt? = some (address, length))
      (outside : ¬s.Inside m address.toInt length.toInt) :
      Misuses s m b (.unreadable b.name address length)
  | notText {b : Binding} {address length : Int32} (reads : b.textAt? = some (address, length))
      (inside : s.Inside m address.toInt length.toInt)
      (noText : ∀ text, ¬s.Holds m address length text) : Misuses s m b (.notText b.name address)
  | unwritable {name length target room : Int32} {key value : String}
      (holds : s.Holds m name length key) (found : s.options.extra.find? key = some value)
      (outside : ¬s.Inside m target.toInt (copied value room)) :
      Misuses s m (.readOption name length target room)
        (.unwritable "readOption" target (copied value room))

variable {s : Surroundings} {m : Machine} {b : Binding}

/-- The bytes of a setting that are copied. -/
theorem length_copied (value : String) (room : Int32) :
    ((bytesOfText value).take ((natural? room).getD 0)).length = copied value room := by
  have room_eq : (natural? room).getD 0 = room.toInt.toNat := by
    cases found : natural? room with
    | none =>
      have negative := natural?_eq_none_iff.mp found
      rw [Option.getD_none]
      omega
    | some n => exact (natural?_eq_some_iff.mp found).2.symm
  rw [List.length_take, room_eq]
  rfl

theorem setting?_of_holds {name length : Int32} {key : String} (holds : s.Holds m name length key)
    (b : Binding) :
    b.setting? s m name length = .ok ((s.options.extra.find? key).map bytesOfText) := by
  unfold setting?
  rw [Surroundings.text_of_holds holds]
  rfl

/-- What a binding asks for comes of it. -/
theorem outcome_of_asks {note : Option Note} {entry : Option LogEntry}
    (asks : b.Asks s m note entry) : b.outcome s m = .ok (note, entry) := by
  cases asks with
  | totalMemory | threadId | isDebug | annotatePointer | remove => rfl
  | annotateRange eq | annotateColor eq =>
    simp only [outcome, note?, colorOf_of_eq eq]
    rfl
  | annotateText holds | log holds =>
    simp only [outcome, note?, log?, Surroundings.text_of_holds holds]
    rfl
  | optionLength holds =>
    simp only [outcome, reply, setting?_of_holds holds]
    rfl
  | @readOption name length target room key holds fits =>
    simp only [outcome, reply, setting?_of_holds holds]
    cases found : s.options.extra.find? key with
    | none => rfl
    | some value =>
      simp only [Option.map_some, bind, Except.bind]
      cases written : s.write? m target ((bytesOfText value).take ((natural? room).getD 0)) with
      | none =>
        have outside := Surroundings.write?_eq_none_iff.mp written
        rw [length_copied] at outside
        exact absurd (fits value found) outside
      | some memory => rfl

/-- A misuse comes of a misused binding. -/
theorem outcome_of_misuses {f : Misuse} (misuses : b.Misuses s m f) :
    b.outcome s m = .error f := by
  cases misuses with
  | color paints outside =>
    cases b <;> cases paints <;>
      simp only [outcome, note?, colorOf_of_not outside] <;> rfl
  | unreadable reads outside =>
    cases b <;> cases reads <;>
      simp only [outcome, note?, log?, reply, setting?,
        Surroundings.text_of_not_inside outside] <;> rfl
  | notText reads inside noText =>
    cases b <;> cases reads <;>
      simp only [outcome, note?, log?, reply, setting?,
        Surroundings.text_of_not_holds inside noText] <;> rfl
  | @unwritable name length target room key value holds found outside =>
    have unwritten : s.write? m target ((bytesOfText value).take ((natural? room).getD 0)) = none :=
      Surroundings.write?_eq_none_iff.mpr (by rwa [length_copied])
    simp only [outcome, reply, setting?_of_holds holds, found, Option.map_some, bind, Except.bind,
      unwritten, length_copied]
    rfl

/-- A binding that reads a text asks for something, or the text is not there. -/
theorem holds_or_misuses {address length : Int32} (reads : b.textAt? = some (address, length)) :
    (∃ text, s.Holds m address length text) ∨ ∃ f, b.Misuses s m f := by
  rcases s.holds_or m address length with holds | outside | ⟨inside, noText⟩
  · exact .inl holds
  · exact .inr ⟨_, .unreadable reads outside⟩
  · exact .inr ⟨_, .notText reads inside noText⟩

/-- A binding that takes a color asks for something, or the number is no color. -/
theorem color_or_misuses {value : Int32} (paints : b.paint? = some value) :
    (∃ c : Color, (c.value.toNat : Int) = value.toInt) ∨ ∃ f, b.Misuses s m f := by
  by_cases inside : 0 ≤ value.toInt ∧ value.toInt < 2 ^ 24
  · exact .inl (exists_color inside)
  · exact .inr ⟨_, .color paints inside⟩

/-- Every binding asks for something or is misused. -/
theorem asks_or_misuses (s : Surroundings) (m : Machine) (b : Binding) :
    (∃ note entry, b.Asks s m note entry) ∨ ∃ f, b.Misuses s m f := by
  cases b with
  | totalMemory => exact .inl ⟨_, _, .totalMemory⟩
  | threadId => exact .inl ⟨_, _, .threadId⟩
  | isDebug => exact .inl ⟨_, _, .isDebug⟩
  | annotatePointer => exact .inl ⟨_, _, .annotatePointer⟩
  | remove => exact .inl ⟨_, _, .remove⟩
  | annotateRange => exact (color_or_misuses rfl).imp_left fun ⟨_, eq⟩ => ⟨_, _, .annotateRange eq⟩
  | annotateColor => exact (color_or_misuses rfl).imp_left fun ⟨_, eq⟩ => ⟨_, _, .annotateColor eq⟩
  | annotateText => exact (holds_or_misuses rfl).imp_left fun ⟨_, h⟩ => ⟨_, _, .annotateText h⟩
  | log => exact (holds_or_misuses rfl).imp_left fun ⟨_, h⟩ => ⟨_, _, .log h⟩
  | optionLength => exact (holds_or_misuses rfl).imp_left fun ⟨_, h⟩ => ⟨_, _, .optionLength h⟩
  | readOption name length target room =>
    rcases holds_or_misuses (s := s) (m := m) (b := .readOption name length target room) rfl
      with ⟨key, holds⟩ | misuse
    · by_cases fits : ∀ value, s.options.extra.find? key = some value →
          s.Inside m target.toInt (copied value room)
      · exact .inl ⟨_, _, .readOption holds fits⟩
      · simp only [not_forall] at fits
        obtain ⟨value, found, outside⟩ := fits
        exact .inr ⟨_, .unwritable holds found outside⟩
    · exact .inr misuse

/-- What asks for a note is an annotation. -/
theorem Asks.isSome_note {note : Option Note} {entry : Option LogEntry}
    (asks : b.Asks s m note entry) : note.isSome = b.kind?.isSome := by
  cases asks <;> rfl

theorem outcome_ok_iff {note : Option Note} {entry : Option LogEntry} :
    b.outcome s m = .ok (note, entry) ↔ b.Asks s m note entry := by
  refine ⟨fun ok => ?_, outcome_of_asks⟩
  rcases asks_or_misuses s m b with ⟨note', entry', asks⟩ | ⟨f, misuses⟩
  · rw [outcome_of_asks asks] at ok
    cases ok
    exact asks
  · rw [outcome_of_misuses misuses] at ok
    cases ok

theorem outcome_error_iff {f : Misuse} : b.outcome s m = .error f ↔ b.Misuses s m f := by
  refine ⟨fun error => ?_, outcome_of_misuses⟩
  rcases asks_or_misuses s m b with ⟨note, entry, asks⟩ | ⟨f', misuses⟩
  · rw [outcome_of_asks asks] at error
    cases error
  · rw [outcome_of_misuses misuses] at error
    cases error
    exact misuses

end Binding

end Heapscope
