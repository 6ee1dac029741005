import Heapscope.Proofs.Bounds

/-!
# Valid notes

A note that is valid in an address space covers bytes of it only, and stays valid in every larger
one: nothing but the checks of ranges looks at the capacity.

* `Note.validate_ok_iff` -- what a valid note is;
* `Note.validate_mono` -- a larger address space refuses no more notes;
* `Note.validate_error` -- why a note is refused;
* `Note.Complete.validate_error` -- a note with the fields of its kind is refused for its bytes only.
-/

namespace Heapscope

namespace Note

variable {a : Note} {capacity small large : UInt32}

theorem validate_ok_iff : a.validate capacity = .ok () ↔
    a.checkFields capacity = .ok () ∧ a.checkAlpha = .ok () ∧
      a.address.toNat + a.extent.toNat ≤ capacity.toNat := by
  rw [← checkSpan_ok_iff]
  unfold validate
  cases a.checkFields capacity with
  | error e => simp [bind, Except.bind]
  | ok =>
    cases a.checkAlpha with
    | error e => simp [bind, Except.bind]
    | ok => simp [bind, Except.bind]

/-- A note covers the bytes of its size. -/
theorem size_le_extent {s : UInt32} (size : a.size = some s) : s.toNat ≤ a.extent.toNat := by
  unfold extent
  rw [size, Option.getD_some]
  show s.toNat ≤ (if s ≤ 1 then 1 else s).toNat
  split
  · rename_i le
    exact UInt32.le_iff_toNat_le.mp le
  · exact Nat.le_refl _

/-- The end of an arrow is the one field that is compared with the capacity. -/
theorem checkFields_mono (le : small.toNat ≤ large.toNat) (ok : a.checkFields small = .ok ()) :
    a.checkFields large = .ok () := by
  unfold checkFields at ok ⊢
  cases kind : a.kind with
  | remove mark => rfl
  | add mark =>
    cases mark with
    | range | text | color =>
      rw [kind] at ok
      exact ok
    | pointer =>
      rw [kind] at ok
      cases target : a.target with
      | none =>
        simp only [target] at ok
        cases ok
      | some t =>
        simp only [target] at ok ⊢
        rw [checkSpan_ok_iff] at ok ⊢
        exact Nat.le_trans ok le

/-- A larger address space refuses no more notes. -/
theorem validate_mono (le : small.toNat ≤ large.toNat) (ok : a.validate small = .ok ()) :
    a.validate large = .ok () := by
  obtain ⟨fields, alpha, fits⟩ := validate_ok_iff.mp ok
  exact validate_ok_iff.mpr ⟨checkFields_mono le fields, alpha, Nat.le_trans fits le⟩

/-! ## Why a note is refused -/

/-- A note has the field that its kind needs. -/
def HasField (a : Note) : Prop :=
  match a.kind with
  | .add .range => a.size.isSome
  | .add .text => a.text.isSome
  | .add .pointer => a.target.isSome
  | .add .color => a.color.isSome
  | .remove _ => True

theorem checkFields_error {i : Invalid} (error : a.checkFields capacity = .error i) :
    (∃ field, i = a.lacks field ∧ ¬a.HasField) ∨ (i = .size 0 ∧ a.size = some 0) ∨
      ∃ address size, i = .outside address size capacity := by
  unfold checkFields at error
  unfold HasField
  cases kind : a.kind with
  | remove mark =>
    rw [kind] at error
    cases error
  | add mark =>
    rw [kind] at error
    cases mark with
    | range =>
      cases size : a.size with
      | none =>
        simp only [size] at error
        cases error
        exact .inl ⟨"size", rfl, by simp⟩
      | some n =>
        simp only [size] at error
        split at error
        · rename_i zero
          cases error
          exact .inr (.inl ⟨rfl, by rw [zero]⟩)
        · cases error
    | text =>
      simp only at error
      split at error
      · rename_i absent
        cases error
        exact .inl ⟨"text", rfl, by simpa using absent⟩
      · cases error
    | pointer =>
      cases target : a.target with
      | none =>
        simp only [target] at error
        cases error
        exact .inl ⟨"target", rfl, by simp⟩
      | some t =>
        simp only [target] at error
        exact .inr (.inr ⟨_, _, checkSpan_error error⟩)
    | color =>
      simp only at error
      split at error
      · rename_i absent
        cases error
        exact .inl ⟨"color", rfl, by simpa using absent⟩
      · cases error

theorem checkAlpha_error {i : Invalid} (error : a.checkAlpha = .error i) :
    ∃ x, i = .alpha x ∧ a.alpha = some x ∧ x.inUnit = false := by
  unfold checkAlpha at error
  cases alpha : a.alpha with
  | none =>
    simp only [alpha] at error
    cases error
  | some x =>
    simp only [alpha] at error
    split at error
    · cases error
    · rename_i outside
      cases error
      exact ⟨x, rfl, rfl, by simpa using outside⟩

/-- A note is refused for a field that it lacks, for an empty span, for its opacity, or for bytes
that are out of range. -/
theorem validate_error {i : Invalid} (error : a.validate capacity = .error i) :
    (∃ field, i = a.lacks field ∧ ¬a.HasField) ∨ (i = .size 0 ∧ a.size = some 0) ∨
      (∃ x, i = .alpha x ∧ a.alpha = some x ∧ x.inUnit = false) ∨
      ∃ address size, i = .outside address size capacity := by
  unfold validate at error
  cases fields : a.checkFields capacity with
  | error i' =>
    rw [fields] at error
    cases error
    rcases checkFields_error fields with lacks | empty | outside
    · exact .inl lacks
    · exact .inr (.inl empty)
    · exact .inr (.inr (.inr outside))
  | ok =>
    rw [fields] at error
    cases alpha : a.checkAlpha with
    | error i' =>
      rw [alpha] at error
      cases error
      exact .inr (.inr (.inl (checkAlpha_error alpha)))
    | ok =>
      rw [alpha] at error
      exact .inr (.inr (.inr ⟨_, _, checkSpan_error error⟩))

/-- A note with the field that its kind needs, whose span is not empty and whose opacity lies in the
unit interval. -/
structure Complete (a : Note) : Prop where
  hasField : a.HasField
  size_ne : a.size ≠ some 0
  inUnit : ∀ x, a.alpha = some x → x.inUnit = true

theorem Complete.validate_error {i : Invalid} (complete : a.Complete)
    (error : a.validate capacity = .error i) : ∃ address size, i = .outside address size capacity := by
  rcases Note.validate_error error with
    ⟨-, -, lacks⟩ | ⟨-, empty⟩ | ⟨x, -, alpha, outside⟩ | outside
  · exact absurd complete.hasField lacks
  · exact absurd empty complete.size_ne
  · rw [complete.inUnit x alpha] at outside
    cases outside
  · exact outside

end Note

end Heapscope
