import Heapscope.Proofs.Wire.Scalars

/-!
# Records that are read field by field

A record is read in the order of its fields, each of which fills a slot.  Fields that were written
lead a reader from the slots before them to the slots after them; what is said of one field at a
time is put together for all of them.

* `Json.ReadAs` -- values from which a reader gets back what they were written from;
* `Record.Reads` -- fields that lead a reader from slots to slots;
* `Record.Reads.field`, `Record.Reads.field?` -- a field that is always there, and one that may be
  left out.
-/

namespace Heapscope

/-! ## Values -/

/-- A value that is there, and from which a reader gets what it was written from. -/
structure Json.ReadAs {α : Type} (reader : Json → Except ReadError α) (v : Json) (a : α) :
    Prop where
  notNull : v ≠ .null
  read : reader v = .ok a

namespace Json

theorem readAs_nat (n : UInt32) : (nat n.toNat).ReadAs readUInt32 n :=
  ⟨by unfold nat; exact nofun, readUInt32_nat n⟩

theorem readAs_nat64 (n : UInt64) : (nat n.toNat).ReadAs readUInt64 n :=
  ⟨by unfold nat; exact nofun, readUInt64_nat n⟩

theorem readAs_text (s : String) : (text s).ReadAs readString s :=
  ⟨by unfold text; exact nofun, rfl⟩

theorem readAs_color (c : Color) : c.toJson.ReadAs Color.ofJson c :=
  ⟨by unfold Color.toJson nat; exact nofun, c.ofJson_toJson⟩

theorem readAs_key (k : AllocationKey) : k.toJson.ReadAs AllocationKey.ofJson k :=
  ⟨by cases k <;> exact nofun, k.ofJson_toJson⟩

theorem ReadAs.readOption {α : Type} {reader : Json → Except ReadError α} {v : Json} {a : α}
    (as : v.ReadAs reader a) : v.readOption reader = .ok (some a) := by
  have present : v.readOption reader = some <$> reader v := by
    unfold Json.readOption
    split
    · exact absurd rfl as.notNull
    · rfl
  rw [present, as.read]
  rfl

/-- What holds of every field that may be left out holds of the field when it is there. -/
theorem forall_mem_field? {α : Type} {P : String × Json → Prop} {name : String} {encode : α → Json}
    {value : Option α} :
    (∀ f ∈ field? name encode value, P f) ↔ ∀ a ∈ value, P (name, encode a) := by
  cases value with
  | none => simp [field?]
  | some a => simp [field?]

end Json

theorem Binary64.Survives.readAs {x : Binary64} (survives : x.Survives) :
    x.toJson.ReadAs Json.readBinary64 x := by
  obtain ⟨n, written, -⟩ := survives.exists_numeral
  exact ⟨by rw [written]; exact nofun, survives.read⟩

/-! ## Fields -/

namespace Record

variable {σ α : Type} {step : σ → String → Json → Except ReadError σ}

/-- The fields of a record as they stand in a tree. -/
def stored (fields : List (String × Json)) : List (Option String × Json) :=
  fields.map fun f => (some f.1, f.2)

/-- Fields, as they are written, lead a reader from slots to slots. -/
def Reads (step : σ → String → Json → Except ReadError σ) (s : σ) (fields : List (String × Json))
    (s' : σ) : Prop := readFields step s (stored fields) = .ok s'

namespace Reads

variable {s s' s'' : σ} {fields rest : List (String × Json)} {name : String}
  {reader : Json → Except ReadError α}

theorem nil : Reads step s [] s := rfl

theorem cons {v : Json} (this : step s name v = .ok s') (more : Reads step s' rest s'') :
    Reads step s ((name, v) :: rest) s'' := by
  unfold Reads readFields stored
  rw [List.map_cons, List.foldlM_cons]
  show (step s name v >>= fun s' => readFields step s' (stored rest)) = _
  rw [this]
  exact more

theorem readFields_append (these : Reads step s fields s') (rest : List (String × Json)) :
    readFields step s (stored (fields ++ rest)) = readFields step s' (stored rest) := by
  unfold Reads readFields stored at *
  rw [List.map_append, List.foldlM_append, these]
  rfl

theorem append (these : Reads step s fields s') (more : Reads step s' rest s'') :
    Reads step s (fields ++ rest) s'' :=
  (these.readFields_append rest).trans more

/-- A field that is always there, with the slot that it fills. -/
theorem field (put : Option α → σ) {v : Json} {a : α} (read : reader v = .ok a)
    (more : Reads step (put (some a)) rest s'')
    (fills : step (put none) name v = fill none (reader v) >>= fun slot => pure (put slot)) :
    Reads step (put none) ((name, v) :: rest) s'' := by
  refine cons ?_ more
  rw [fills, read]
  rfl

/-- A field that is left out when there is nothing to say: it fills its slot, or nothing does. -/
theorem field? (put : Option (Option α) → σ) {encode : α → Json} {value : Option α}
    (as : ∀ a ∈ value, (encode a).ReadAs reader a)
    (more : Reads step (put (value.map some)) rest s'')
    (fills : ∀ v, step (put none) name v
      = fill none (v.readOption reader) >>= fun slot => pure (put slot)) :
    Reads step (put none) (Json.field? name encode value ++ rest) s'' := by
  cases value with
  | none => exact more
  | some a => exact field put (as a rfl).readOption more (fills _)

end Reads

end Record

end Heapscope
