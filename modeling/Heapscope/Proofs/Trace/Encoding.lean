import Heapscope.Trace.Digest
import Mathlib.Algebra.Group.Nat.Defs
import Mathlib.Tactic.Common

/-!
# What a digest is taken of

The byte sequence behind a digest spells out a list of calls in such a way that nothing can shift
from one field or one call to the next.  Numbers have a fixed width, a text states its length,
optional values and keys begin with a tag, and the name of an operation settles which arguments
follow.

* `Told` -- two values that are told apart by their encodings, whatever follows these;
* `told_text`, `told_optional`, `told_note`, `told_call` -- so are texts, optional values, notes and
  calls, each from its parts;
* `flatMap_call_inj` -- a list of calls is told by its bytes alone;
* `Trace.encodes_uniquely` -- traces with the same byte sequence are the same, so two traces of one
  digest are a collision of the digest.
-/

namespace Heapscope

namespace Encode

variable {α : Type}

/-- Streams that begin with the encodings of two values are equal only when the values are, and what
follows them is. -/
def Told (encode : α → List UInt8) (a b : α) : Prop :=
  ∀ ⦃u v : List UInt8⦄, encode a ++ u = encode b ++ v → a = b ∧ u = v

/-! ## Numbers -/

theorem length_littleEndian (count n : Nat) : (littleEndian count n).length = count := by
  induction count generalizing n with
  | zero => rfl
  | succ count ih => rw [littleEndian, List.length_cons, ih]

theorem littleEndian_inj {count n m : Nat} (hn : n < 256 ^ count) (hm : m < 256 ^ count)
    (same : littleEndian count n = littleEndian count m) : n = m := by
  induction count generalizing n m with
  | zero =>
    rw [Nat.pow_zero] at hn hm
    omega
  | succ count ih =>
    rw [littleEndian, littleEndian] at same
    obtain ⟨low, high⟩ := List.cons.inj same
    have pow : 256 ^ (count + 1) = 256 ^ count * 256 := Nat.pow_succ ..
    have quotient : n / 256 = m / 256 :=
      ih (Nat.div_lt_of_lt_mul (by omega)) (Nat.div_lt_of_lt_mul (by omega)) high
    have remainder : n % 256 = m % 256 := by
      have bytes := congrArg UInt8.toNat low
      rw [UInt8.toNat_ofNat', UInt8.toNat_ofNat'] at bytes
      omega
    omega

/-- Numbers of as many bytes are told apart. -/
theorem told_littleEndian (count : Nat) {n m : Nat} (hn : n < 256 ^ count) (hm : m < 256 ^ count) :
    Told (littleEndian count) n m := by
  intro u v same
  have lengths := (length_littleEndian count n).trans (length_littleEndian count m).symm
  obtain ⟨bytes, rest⟩ := List.append_inj same lengths
  exact ⟨littleEndian_inj hn hm bytes, rest⟩

theorem told_word (a b : UInt32) : Told word a b := by
  intro u v same
  obtain ⟨eq, rest⟩ := told_littleEndian 4 a.toNat_lt b.toNat_lt same
  exact ⟨UInt32.toNat_inj.mp eq, rest⟩

theorem told_double (a b : UInt64) : Told double a b := by
  intro u v same
  obtain ⟨eq, rest⟩ := told_littleEndian 8 a.toNat_lt b.toNat_lt same
  exact ⟨UInt64.toNat_inj.mp eq, rest⟩

theorem told_binary64 (x y : Binary64) : Told binary64 x y := by
  intro u v same
  obtain ⟨bits, rest⟩ := told_double x.bits y.bits same
  exact ⟨congrArg Binary64.mk bits, rest⟩

theorem told_color (c d : Color) : Told color c d := by
  intro u v same
  obtain ⟨value, rest⟩ := told_word c.value d.value same
  cases c
  cases d
  cases value
  exact ⟨rfl, rest⟩

/-! ## Texts -/

theorem toList_loop (b : ByteArray) (i : Nat) (r : List UInt8) :
    ByteArray.toList.loop b i r = r.reverse ++ b.data.toList.drop i := by
  fun_induction ByteArray.toList.loop b i r with
  | case1 i r more ih =>
    have inside : i < b.data.toList.length := by
      rw [Array.length_toList]
      exact more
    rw [ih, List.reverse_cons, List.append_assoc, List.singleton_append,
      List.drop_eq_getElem_cons inside]
    congr 2
    show b.get! i = _
    simp [ByteArray.get!, more]
  | case2 i r done =>
    have short : b.data.toList.length ≤ i := by
      rw [Array.length_toList]
      exact Nat.le_of_not_lt done
    rw [List.drop_eq_nil_of_le short, List.append_nil]

theorem toList_toUTF8_inj {s t : String} (same : s.toUTF8.toList = t.toUTF8.toList) : s = t := by
  have bytes : ∀ s : String, s.toUTF8.toList = s.toByteArray.data.toList := by
    intro s
    show ByteArray.toList.loop s.toUTF8 0 [] = _
    rw [toList_loop]
    rfl
  rw [bytes, bytes] at same
  exact String.toByteArray_inj.mp (ByteArray.ext (Array.toList_inj.mp same))

/-- A text whose length has eight bytes at most. -/
def Short (s : String) : Prop := s.toUTF8.toList.length < 2 ^ 64

instance (s : String) : Decidable (Short s) :=
  inferInstanceAs (Decidable (s.toUTF8.toList.length < 2 ^ 64))

/-- A text ends where its length says. -/
theorem told_text {s t : String} (hs : Short s) (ht : Short t) : Told text s t := by
  intro u v same
  unfold text length at same
  simp only [List.append_assoc] at same
  obtain ⟨lengths, same⟩ := told_littleEndian 8 hs ht same
  obtain ⟨bytes, rest⟩ := List.append_inj same lengths
  exact ⟨toList_toUTF8_inj bytes, rest⟩

/-! ## Optional values -/

/-- A tag tells whether there is a value. -/
theorem told_optional {encode : α → List UInt8} {x y : Option α}
    (values : ∀ a ∈ x, ∀ b ∈ y, Told encode a b) : Told (optional encode) x y := by
  intro u v same
  cases x with
  | none =>
    cases y with
    | none => exact ⟨rfl, (List.cons.inj same).2⟩
    | some b => exact absurd (List.cons.inj same).1 (by decide)
  | some a =>
    cases y with
    | none => exact absurd (List.cons.inj same).1 (by decide)
    | some b =>
      obtain ⟨rfl, rest⟩ := values a rfl b rfl (List.cons.inj same).2
      exact ⟨rfl, rest⟩

theorem told_optionalWord (x y : Option UInt32) : Told (optional word) x y :=
  told_optional fun a _ b _ => told_word a b

theorem told_optionalColor (x y : Option Color) : Told (optional color) x y :=
  told_optional fun c _ d _ => told_color c d

/-! ## Notes -/

theorem short_kindName (k : NoteKind) : Short k.name := by
  cases k with
  | add mark => cases mark <;> decide +kernel
  | remove mark => cases mark <;> decide +kernel

theorem kindName_inj {k l : NoteKind} (same : k.name = l.name) : k = l := by
  revert same
  cases k with
  | add mark => cases l <;> rename_i other <;> cases mark <;> cases other <;> decide
  | remove mark => cases l <;> rename_i other <;> cases mark <;> cases other <;> decide

theorem told_note {a b : Note} (label_a : ∀ s ∈ a.text, Short s) (label_b : ∀ s ∈ b.text, Short s) :
    Told note a b := by
  intro u v same
  obtain ⟨kind, address, size, target, label, paint, alpha⟩ := a
  obtain ⟨kind', address', size', target', label', paint', alpha'⟩ := b
  unfold note at same
  simp only [List.append_assoc] at same
  obtain ⟨names, same⟩ := told_text (short_kindName kind) (short_kindName kind') same
  obtain ⟨eq_address, same⟩ := told_word address address' same
  obtain ⟨eq_size, same⟩ := told_optionalWord size size' same
  obtain ⟨eq_target, same⟩ := told_optionalWord target target' same
  obtain ⟨eq_label, same⟩ := told_optional
    (fun s hs t ht => told_text (label_a s hs) (label_b t ht)) same
  obtain ⟨eq_paint, same⟩ := told_optionalColor paint paint' same
  obtain ⟨eq_alpha, rest⟩ := told_optional (fun x _ y _ => told_binary64 x y) same
  have eq_kind := kindName_inj names
  subst eq_kind eq_address eq_size eq_target eq_label eq_paint eq_alpha
  exact ⟨rfl, rest⟩

/-! ## Calls -/

/-- The labels of an operation. -/
def labels : Op → List String
  | .annotate a => a.text.toList
  | _ => []

theorem short_opName (op : Op) : Short op.name := by
  have names : ∀ s ∈ ["malloc", "free", "sleep", "annotate"], Short s := by decide +kernel
  cases op <;> exact names _ (by simp [Op.name])

/-- Operations of one name have the same fields. -/
theorem told_args {op op' : Op} (names : op.name = op'.name)
    (labels_op : ∀ s ∈ labels op, Short s) (labels_op' : ∀ s ∈ labels op', Short s) :
    Told args op op' := by
  intro u v same
  cases op with
  | malloc size pinned paint =>
    cases op' with
    | malloc size' pinned' paint' =>
      simp only [args, List.append_assoc] at same
      obtain ⟨eq_size, same⟩ := told_word size size' same
      obtain ⟨eq_pinned, same⟩ := told_optionalWord pinned pinned' same
      obtain ⟨eq_paint, rest⟩ := told_optionalColor paint paint' same
      subst eq_size eq_pinned eq_paint
      exact ⟨rfl, rest⟩
    | free | sleep | annotate => exact absurd names (by simp [Op.name])
  | free address paint =>
    cases op' with
    | free address' paint' =>
      simp only [args, List.append_assoc] at same
      obtain ⟨eq_address, same⟩ := told_optionalWord address address' same
      obtain ⟨eq_paint, rest⟩ := told_optionalColor paint paint' same
      subst eq_address eq_paint
      exact ⟨rfl, rest⟩
    | malloc | sleep | annotate => exact absurd names (by simp [Op.name])
  | sleep =>
    cases op' with
    | sleep => exact ⟨rfl, same⟩
    | malloc | free | annotate => exact absurd names (by simp [Op.name])
  | annotate a =>
    cases op' with
    | annotate b =>
      obtain ⟨rfl, rest⟩ := told_note (fun s hs => labels_op s (by simpa [labels] using hs))
        (fun s hs => labels_op' s (by simpa [labels] using hs)) same
      exact ⟨rfl, rest⟩
    | malloc | free | sleep => exact absurd names (by simp [Op.name])

/-- The name in a key. -/
def keyNames : Option AllocationKey → List String
  | some (.named s) => [s]
  | _ => []

/-- The tag of a key tells a name from an address. -/
theorem told_key {k l : Option AllocationKey} (names_k : ∀ s ∈ keyNames k, Short s)
    (names_l : ∀ s ∈ keyNames l, Short s) : Told key k l := by
  intro u v same
  rcases k with _ | s | a
  · rcases l with _ | t | b
    · exact ⟨rfl, (List.cons.inj same).2⟩
    · exact absurd (List.cons.inj same).1 (by decide)
    · exact absurd (List.cons.inj same).1 (by decide)
  · rcases l with _ | t | b
    · exact absurd (List.cons.inj same).1 (by decide)
    · obtain ⟨rfl, rest⟩ := told_text (names_k s (by simp [keyNames]))
        (names_l t (by simp [keyNames])) (List.cons.inj same).2
      exact ⟨rfl, rest⟩
    · exact absurd (List.cons.inj same).1 (by decide)
  · rcases l with _ | t | b
    · exact absurd (List.cons.inj same).1 (by decide)
    · exact absurd (List.cons.inj same).1 (by decide)
    · obtain ⟨rfl, rest⟩ := told_word a b (List.cons.inj same).2
      exact ⟨rfl, rest⟩

end Encode

/-- The texts of a call that a workload is free to choose: its label and the name in its key. -/
def Call.texts (c : Call) : List String := Encode.labels c.op ++ Encode.keyNames c.id

namespace Encode

/-- Calls are told apart, whatever follows them. -/
theorem told_call {c d : Call} (texts_c : ∀ s ∈ c.texts, Short s)
    (texts_d : ∀ s ∈ d.texts, Short s) : Told call c d := by
  obtain ⟨labels_c, names_c⟩ := List.forall_mem_append.mp texts_c
  obtain ⟨labels_d, names_d⟩ := List.forall_mem_append.mp texts_d
  intro u v same
  obtain ⟨op, id, result, thread, ⟨time⟩, ⟨duration⟩⟩ := c
  obtain ⟨op', id', result', thread', ⟨time'⟩, ⟨duration'⟩⟩ := d
  unfold call at same
  simp only [List.append_assoc] at same
  obtain ⟨names, same⟩ := told_text (short_opName op) (short_opName op') same
  obtain ⟨eq_op, same⟩ := told_args names labels_c labels_d same
  obtain ⟨eq_id, same⟩ := told_key names_c names_d same
  obtain ⟨eq_result, same⟩ := told_optionalWord result result' same
  obtain ⟨eq_thread, same⟩ := told_word thread thread' same
  obtain ⟨eq_time, same⟩ := told_double time time' same
  obtain ⟨eq_duration, rest⟩ := told_double duration duration' same
  subst eq_op eq_id eq_result eq_thread eq_time eq_duration
  exact ⟨rfl, rest⟩

theorem call_ne_nil (c : Call) : call c ≠ [] := by
  intro empty
  have width := congrArg List.length empty
  unfold call double at width
  simp only [List.length_append, length_littleEndian, List.length_nil] at width
  omega

/-- A list of calls is told by its bytes, even without its length in front. -/
theorem flatMap_call_inj {l l' : List Call} (texts : ∀ c ∈ l, ∀ s ∈ c.texts, Short s)
    (texts' : ∀ c ∈ l', ∀ s ∈ c.texts, Short s) (same : l.flatMap call = l'.flatMap call) :
    l = l' := by
  induction l generalizing l' with
  | nil =>
    cases l' with
    | nil => rfl
    | cons d rest' =>
      rw [List.flatMap_nil, List.flatMap_cons] at same
      exact absurd (List.append_eq_nil_iff.mp same.symm).1 (call_ne_nil d)
  | cons c rest ih =>
    cases l' with
    | nil =>
      rw [List.flatMap_nil, List.flatMap_cons] at same
      exact absurd (List.append_eq_nil_iff.mp same).1 (call_ne_nil c)
    | cons d rest' =>
      obtain ⟨first, others⟩ := List.forall_mem_cons.mp texts
      obtain ⟨first', others'⟩ := List.forall_mem_cons.mp texts'
      rw [List.flatMap_cons, List.flatMap_cons] at same
      obtain ⟨eq, tail⟩ := told_call first first' same
      rw [eq, ih others others' tail]

theorem calls_inj {l l' : List Call} (texts : ∀ c ∈ l, ∀ s ∈ c.texts, Short s)
    (texts' : ∀ c ∈ l', ∀ s ∈ c.texts, Short s) (same : calls l = calls l') : l = l' := by
  unfold calls length at same
  have widths : (littleEndian 8 l.length).length = (littleEndian 8 l'.length).length := by
    rw [length_littleEndian, length_littleEndian]
  exact flatMap_call_inj texts texts' (List.append_inj same widths).2

end Encode

namespace Trace

/-- No text of the trace has more bytes than eight bytes can count, as no text in memory has. -/
def Short (t : Trace) : Prop := ∀ c ∈ t.calls, ∀ s ∈ c.texts, Encode.Short s

/-- Traces have the same byte sequence only if they are the same, with as many calls and every call
the same in every field, opacities by their bits.  So different traces have one digest only if it
collides: different byte sequences, spelled out by the traces, have it. -/
theorem encodes_uniquely (t t' : Trace) (short : t.Short) (short' : t'.Short) :
    (Encode.calls t.calls = Encode.calls t'.calls ↔ t = t') ∧
    (t ≠ t' → t.digest = t'.digest →
      Encode.calls t.calls ≠ Encode.calls t'.calls ∧
        Heapscope.digest (Encode.calls t.calls) = Heapscope.digest (Encode.calls t'.calls)) := by
  have told : Encode.calls t.calls = Encode.calls t'.calls ↔ t = t' := by
    constructor
    · intro same
      have calls : t.calls = t'.calls := Encode.calls_inj short short' same
      cases t
      cases t'
      cases calls
      rfl
    · rintro rfl
      rfl
  exact ⟨told, fun differ same => ⟨fun bytes => differ (told.mp bytes), same⟩⟩

/-- A sleep with a block of a name that is a number, and one with a block at that address. -/
def sleepOf (key : AllocationKey) : Trace where
  calls := [⟨.sleep, some key, none, 0, ⟨1⟩, ⟨1⟩⟩]
  inOrder := .cons (by simp) .nil

theorem encodes_uniquely_of_sleepOf :
    (sleepOf (.named "7")).Short ∧ (sleepOf (.address 7)).Short ∧
      Encode.calls (sleepOf (.named "7")).calls ≠ Encode.calls (sleepOf (.address 7)).calls := by
  have short : (sleepOf (.named "7")).Short := by
    intro c member s text
    cases List.mem_singleton.mp member
    cases List.mem_singleton.mp text
    show "7".toUTF8.toList.length < 2 ^ 64
    decide +kernel
  have short' : (sleepOf (.address 7)).Short := by
    intro c member s text
    cases List.mem_singleton.mp member
    cases text
  refine ⟨short, short', fun same => ?_⟩
  have equal := (encodes_uniquely _ _ short short').1.mp same
  exact absurd (congrArg Trace.calls equal) (by decide)

end Trace

end Heapscope
