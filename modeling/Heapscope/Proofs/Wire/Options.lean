import Heapscope.Proofs.OrderedMap
import Heapscope.Proofs.Wire.Records
import Heapscope.Wire.Options

/-!
# Options that are read as they were written

The settings of a guest stand among the fields that options have of their own.  Options are read as
they were written, with the settings in their order, as long as no setting has the name of such a
field.  One that has is taken for the field when the text is read: the field is there already, or a
string is no value for it, and the text is refused.

* `GuestOptions.names` -- the names of the fields that options have of their own;
* `GuestOptions.Slots.readFields_settings` -- settings are held back up to the first of these names;
* `GuestOptions.written_options_read` -- which options are read as they were written;
* `GuestOptions.written_options_refused` -- valid options that are not.
-/

namespace Heapscope

open Record (Reads stored)

namespace GuestOptions

/-- The names of the fields that options have of their own. -/
def names : List String := ["capacity", "debug", "fuel", "memoryLimit"]

/-- The fields that options have of their own. -/
def ownFields (o : GuestOptions) : List (String × Json) :=
  ("capacity", .nat o.capacity.toNat) :: ("debug", .boolean o.debug)
    :: (Json.field? "fuel" (fun n => .nat n.toNat) o.fuel
      ++ [("memoryLimit", .nat o.memoryLimit.toNat)])

/-- Settings as fields. -/
def settingFields (settings : List (String × String)) : List (String × Json) :=
  settings.map fun e => (e.1, .text e.2)

theorem toJson_eq (o : GuestOptions) :
    o.toJson = .record (o.ownFields ++ settingFields o.extra.entries) := by
  simp [toJson, ownFields, settingFields]

theorem printable_toJson (o : GuestOptions) : o.toJson.Printable := by
  rw [toJson_eq]
  refine Json.printable_record ?_
  simp only [ownFields, settingFields, List.forall_mem_append, List.forall_mem_cons,
    Json.forall_mem_field?, List.forall_mem_map]
  exact ⟨⟨Json.printable_numeral _, Json.printable_boolean _,
    fun _ _ => Json.printable_numeral _, Json.printable_numeral _, nofun⟩,
    fun e _ => Json.printable_text e.2⟩

namespace Slots

/-- The slots of options whose own fields have been read. -/
def own (o : GuestOptions) : Slots :=
  ⟨some o.capacity, some o.debug, o.fuel.map some, some o.memoryLimit, []⟩

theorem reads_own (depth : Nat) (o : GuestOptions) : Reads (read depth) {} o.ownFields (own o) := by
  unfold ownFields own
  refine .field (fun s => Slots.mk s none none none []) (Json.readUInt32_nat o.capacity) ?_ rfl
  refine .field (fun s => Slots.mk o.capacity s none none [])
    (show Json.readBoolean (.boolean o.debug) = .ok o.debug from rfl) ?_ rfl
  refine .field? (fun s => Slots.mk o.capacity o.debug s none []) (fun n _ => Json.readAs_nat64 n)
    ?_ fun _ => rfl
  exact .field (fun s => Slots.mk o.capacity o.debug (o.fuel.map some) s [])
    (Json.readUInt64_nat o.memoryLimit) .nil rfl

/-- A setting is held back, unless it has the name of a field, for which a string is no value. -/
theorem read_setting (depth : Nat) (s : Slots) (key value : String) :
    read depth s key (.text value) = if key ∈ names then .error .malformed
      else .ok { s with held := s.held ++ [(key, .text value)] } := by
  have refused : ∀ {α β : Type} (slot : Option α) (f : Option α → β),
      (fill slot (.error .malformed) >>= fun slot => pure (f slot)) = .error .malformed := by
    intro α β slot f
    cases slot <;> rfl
  unfold read
  split
  · exact refused s.capacity _
  · exact refused s.debug _
  · exact refused s.fuel _
  · exact refused s.memoryLimit _
  · rename_i noCapacity noDebug noFuel noLimit
    have other : key ∉ names := by simp_all [names]
    rw [if_neg other]
    rfl

/-- Settings are held back in their order, unless one of them has the name of a field. -/
theorem readFields_settings (depth : Nat) (s : Slots) (settings : List (String × String)) :
    readFields (read depth) s (stored (settingFields settings))
      = if ∀ e ∈ settings, e.1 ∉ names then
          .ok { s with held := s.held ++ settingFields settings }
        else .error .malformed := by
  induction settings generalizing s with
  | nil => simp [settingFields, stored, readFields]; rfl
  | cons e settings ih =>
    show (read depth s e.1 (.text e.2) >>= fun s' =>
      readFields (read depth) s' (stored (settingFields settings))) = _
    rw [read_setting]
    by_cases named : e.1 ∈ names
    · rw [if_pos named, if_neg fun others => others e List.mem_cons_self named]
      rfl
    · rw [if_neg named]
      show readFields (read depth) _ (stored (settingFields settings)) = _
      rw [ih]
      simp only [List.forall_mem_cons, named, not_false_eq_true, true_and, settingFields,
        List.map_cons, List.append_assoc, List.singleton_append]

/-- Settings that were held back are read one after the other. -/
theorem mapM_readString (settings : List (String × String)) :
    ((settingFields settings).mapM fun e =>
      (do return (e.1, ← e.2.readString) : Except ReadError (String × String))) = .ok settings := by
  induction settings with
  | nil => rfl
  | cons e settings ih =>
    have this : settingFields (e :: settings) = (e.1, .text e.2) :: settingFields settings := rfl
    rw [this, List.mapM_cons, ih]
    rfl

theorem finish_own (o : GuestOptions) :
    finish { own o with held := settingFields o.extra.entries } = .ok o := by
  obtain ⟨capacity, debug, fuel, memoryLimit, extra⟩ := o
  unfold finish
  rw [mapM_readString]
  show Except.ok _ = _
  cases fuel <;> simp [own, OrderedMap.ofList_entries]

end Slots

/-! ## Texts -/

theorem readText_eq (o : GuestOptions) : Json.readText ofJson o.toJson.compact
    = if ∀ e ∈ o.extra.entries, e.1 ∉ names then .ok o else .error .malformed := by
  rw [Json.readText_compact o.printable_toJson, toJson_eq]
  show (readFields (Slots.read 126) {} (stored (o.ownFields ++ settingFields o.extra.entries))
    >>= Slots.finish) = _
  rw [(Slots.reads_own 126 o).readFields_append, Slots.readFields_settings]
  split
  · exact Slots.finish_own o
  · rfl

/-- Options are read as they were written exactly when no setting has the name of a field; the text
of any other is refused. -/
theorem written_options_read (o : GuestOptions) : Json.readText ofJson o.toJson.compact
    = if ∀ key ∈ o.extra.keys, key ∉ names then .ok o else .error .malformed := by
  have entries : (∀ key ∈ o.extra.keys, key ∉ names) ↔ ∀ e ∈ o.extra.entries, e.1 ∉ names :=
    List.forall_mem_map
  simp only [readText_eq, entries]

/-- Options with one setting. -/
def withSetting (key value : String) : GuestOptions :=
  { extra := OrderedMap.empty.insert key value }

theorem validate_withSetting (key value : String) : (withSetting key value).validate = .ok () :=
  show ({} : GuestOptions).validate = .ok () by decide

/-- A setting may be named as a field is.  The text then has the field twice, or a string where the
field has a number, and cannot be read. -/
theorem written_options_refused :
    (withSetting "capacity" "8").validate = .ok ()
      ∧ Json.readText ofJson (withSetting "capacity" "8").toJson.compact = .error .malformed
      ∧ (withSetting "fuel" "5").validate = .ok ()
      ∧ Json.readText ofJson (withSetting "fuel" "5").toJson.compact = .error .malformed := by
  refine ⟨validate_withSetting _ _, ?_, validate_withSetting _ _, ?_⟩
  · rw [readText_eq, if_neg (by decide)]
  · rw [readText_eq, if_neg (by decide)]

end GuestOptions

end Heapscope
