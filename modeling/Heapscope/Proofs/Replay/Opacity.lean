import Heapscope.Proofs.Note
import Heapscope.Proofs.Number.Order
import Heapscope.Proofs.OrderedMap
import Heapscope.Proofs.Replay.Playing

/-!
# Opacities are numbers

Two cells look the same when their opacities are equal as numbers, and what is no number equals
nothing, not even itself.  The opacities of a picture are numbers at every time, so looking the same
is an equivalence of all paints that a timeline can show.

* `Segment.isFinite_fraction` -- how far a segment has played is finite;
* `Picture.Numeric` -- the opacities of a picture are numbers, which playing keeps;
* `Picture.numeric_paints` -- so are those of its paints;
* `Paint.same_refl`, `Paint.same_symm`, `Paint.same_trans` -- looking the same.
-/

namespace Heapscope

/-! ## What segments play -/

theorem Segment.isFinite_fraction {s : Segment} {t : Micros} {f : Binary64}
    (fraction : s.fraction t = some f) : f.isFinite = true := by
  unfold Segment.fraction at fraction
  split at fraction
  · cases fraction
  · rename_i started
    split at fraction
    · cases fraction
      decide
    · rename_i within
      cases fraction
      rw [Micros.lt_iff] at started
      rw [not_or, Micros.le_iff, Micros.eq_iff] at within
      have bound_t := t.count.toNat_lt
      have bound_finish := s.finish.count.toNat_lt
      simp only [Micros.toNat_sub]
      exact Binary64.isFinite_div_ofNat (by omega) (by omega) (by omega)

theorem Note.inUnit_alpha {note : Note} (valid : note.checkAlpha = .ok ()) :
    (note.alpha.getD .half).inUnit = true := by
  unfold Note.checkAlpha at valid
  cases alpha : note.alpha with
  | none => decide
  | some x =>
    simp only [alpha] at valid
    split at valid
    · assumption
    · cases valid

/-! ## Paints -/

namespace Paint

/-- The opacities of a paint are numbers. -/
def Numeric (p : Paint) : Prop :=
  p.alpha.isNaN = false ∧ ∀ h, p.highlight = some h → h.alpha.isNaN = false

theorem same_iff {a b : Paint} : a.same b = true ↔ a.fill = b.fill ∧ a.alpha.same b.alpha = true ∧
    a.tint = b.tint ∧ sameHighlight a.highlight b.highlight = true := by
  unfold same
  simp [and_assoc]

theorem same_refl {p : Paint} (numeric : p.Numeric) : p.same p = true := by
  obtain ⟨alpha, highlight⟩ := numeric
  refine same_iff.mpr ⟨rfl, Binary64.same_refl alpha, rfl, ?_⟩
  cases h : p.highlight with
  | none => rfl
  | some h' => simp [sameHighlight, Binary64.same_refl (highlight h' h)]

theorem sameHighlight_symm {a b : Option Highlight} (h : sameHighlight a b = true) :
    sameHighlight b a = true := by
  cases a <;> cases b <;>
    simp only [sameHighlight, Bool.and_eq_true, beq_iff_eq, reduceCtorEq] at h ⊢
  exact ⟨h.1.symm, Binary64.same_symm h.2⟩

theorem sameHighlight_trans {a b c : Option Highlight} (hab : sameHighlight a b = true)
    (hbc : sameHighlight b c = true) : sameHighlight a c = true := by
  cases a <;> cases b <;> cases c <;>
    simp only [sameHighlight, Bool.and_eq_true, beq_iff_eq, reduceCtorEq] at hab hbc ⊢
  exact ⟨hab.1.trans hbc.1, Binary64.same_trans hab.2 hbc.2⟩

theorem same_symm {a b : Paint} (h : a.same b = true) : b.same a = true := by
  obtain ⟨fill, alpha, tint, highlight⟩ := same_iff.mp h
  exact same_iff.mpr
    ⟨fill.symm, Binary64.same_symm alpha, tint.symm, sameHighlight_symm highlight⟩

theorem same_trans {a b c : Paint} (hab : a.same b = true) (hbc : b.same c = true) :
    a.same c = true := by
  obtain ⟨fill, alpha, tint, highlight⟩ := same_iff.mp hab
  obtain ⟨fill', alpha', tint', highlight'⟩ := same_iff.mp hbc
  exact same_iff.mpr ⟨fill.trans fill', Binary64.same_trans alpha alpha', tint.trans tint',
    sameHighlight_trans highlight highlight'⟩

end Paint

/-! ## Pictures -/

/-- What all entries have and a change keeps, they have after a span was changed. -/
theorem forall_mem_modifySpan {α : Type} {P : α → Prop} {f : α → α} {a : Array α}
    (all : ∀ x ∈ a, P x) (keeps : ∀ x, P x → P (f x)) (address size : UInt32) :
    ∀ x ∈ modifySpan f a address size, P x := by
  intro x member
  obtain ⟨i, entry⟩ := Array.mem_iff_getElem?.mp member
  rw [getElem?_modifySpan] at entry
  split at entry
  · obtain ⟨y, at_i, rfl⟩ := Option.map_eq_some_iff.mp entry
    exact keeps y (all y (Array.mem_iff_getElem?.mpr ⟨i, at_i⟩))
  · exact all x (Array.mem_iff_getElem?.mpr ⟨i, entry⟩)

/-- A cell under a highlight. -/
def RangeMark.over (m : RangeMark) (x : Paint) : Paint :=
  { x with highlight := some ⟨m.color, m.alpha⟩ }

/-- A cell under a tint. -/
def ColorMark.over (m : ColorMark) (x : Paint) : Paint := { x with tint := some m.color }

variable {α β : Type} {change : β → α → α} {size : β → UInt32}

/-- The same of a span after the other. -/
theorem forall_mem_foldl_modifySpan {P : α → Prop} {a : Array α} {spans : List (UInt32 × β)}
    (all : ∀ x ∈ a, P x) (keeps : ∀ e ∈ spans, ∀ x, P x → P (change e.2 x)) :
    ∀ x ∈ spans.foldl (fun a e => modifySpan (change e.2) a e.1 (size e.2)) a, P x := by
  induction spans generalizing a with
  | nil => exact all
  | cons e rest ih =>
    obtain ⟨first, others⟩ := List.forall_mem_cons.mp keeps
    exact ih (forall_mem_modifySpan all first _ _) others

theorem size_foldl_modifySpan (a : Array α) (spans : List (UInt32 × β)) :
    (spans.foldl (fun a e => modifySpan (change e.2) a e.1 (size e.2)) a).size = a.size := by
  induction spans generalizing a with
  | nil => rfl
  | cons e rest ih => rw [List.foldl_cons, ih, size_modifySpan]

namespace Picture

/-- The opacities of a picture are numbers. -/
structure Numeric (p : Picture) : Prop where
  cells : ∀ c ∈ p.cells, c.alpha.isNaN = false
  ranges : ∀ e ∈ p.overlay.ranges.entries, e.2.alpha.isNaN = false

namespace Numeric

variable {p : Picture} {f : Binary64} {t : Micros}

theorem blank (capacity : UInt32) : (Picture.blank capacity).Numeric where
  cells := by
    intro c member
    rw [Picture.blank, Array.mem_replicate] at member
    rw [member.2]
    decide
  ranges := by
    intro e member
    cases member

theorem annotate (numeric : p.Numeric) {note : Note} (valid : note.checkAlpha = .ok ())
    (finite : f.isFinite = true) : (p.apply (.annotate note) f).Numeric where
  cells := numeric.cells
  ranges := by
    have kept := numeric.ranges
    show ∀ e ∈ (p.overlay.apply note f).ranges.entries, e.2.alpha.isNaN = false
    unfold Overlay.apply
    cases note.kind with
    | add mark =>
      cases mark with
      | range =>
        have product : (note.alpha.getD .half * f).isNaN = false :=
          Binary64.isNaN_mul (Binary64.isFinite_of_inUnit (Note.inUnit_alpha valid)) finite
        exact OrderedMap.forall_mem_append kept product
      | text | pointer | color => exact kept
    | remove mark =>
      cases mark with
      | range => exact fun e member => kept e (List.mem_filter.mp member).1
      | text | pointer | color => exact kept

theorem apply (numeric : p.Numeric) {mutation : Mutation}
    (valid : ∀ note, mutation = .annotate note → note.checkAlpha = .ok ())
    (finite : f.isFinite = true) : (p.apply mutation f).Numeric := by
  cases mutation with
  | fill address size color =>
    refine ⟨forall_mem_modifySpan numeric.cells ?_ _ _, numeric.ranges⟩
    exact fun _ _ => Binary64.isNaN_of_isFinite finite
  | clear address size =>
    refine ⟨forall_mem_modifySpan numeric.cells ?_ _ _, numeric.ranges⟩
    intro c _
    unfold fade
    split
    · show Binary64.zero.isNaN = false
      decide
    · exact Binary64.isNaN_sub (by decide) finite
  | annotate note => exact numeric.annotate (valid note rfl) finite
  | idle => exact numeric

theorem play (numeric : p.Numeric) {segments : List Segment}
    (valid : ∀ s ∈ segments, ∀ note, s.mutation = .annotate note → note.checkAlpha = .ok ()) :
    (ofSegments.play t p segments).Numeric := by
  induction segments generalizing p with
  | nil => exact numeric
  | cons s rest ih =>
    obtain ⟨first, others⟩ := List.forall_mem_cons.mp valid
    unfold ofSegments.play
    cases fraction : s.fraction t with
    | none => exact numeric
    | some f => exact ih (numeric.apply first (Segment.isFinite_fraction fraction)) others

end Numeric

/-- The marks of one kind come over the cells one by one. -/
theorem paints_eq (p : Picture) : p.paints
    = p.overlay.ranges.entries.foldl (fun a e => modifySpan e.2.over a e.1 e.2.size)
        (p.overlay.colors.entries.foldl (fun a e => modifySpan e.2.over a e.1 e.2.size)
          (p.cells.map fun c => { fill := c.fill, alpha := c.alpha })) := rfl

theorem numeric_paints {p : Picture} (numeric : p.Numeric) : ∀ x ∈ p.paints, x.Numeric := by
  rw [paints_eq]
  refine forall_mem_foldl_modifySpan (forall_mem_foldl_modifySpan ?_ ?_) ?_
  · intro x member
    obtain ⟨c, cell, rfl⟩ := Array.mem_map.mp member
    exact ⟨numeric.cells c cell, by simp⟩
  · -- a tint does not change opacities
    exact fun e _ x hx => hx
  · intro e member x hx
    refine ⟨hx.1, ?_⟩
    intro h eq
    cases eq
    exact numeric.ranges e member

theorem size_paints (p : Picture) : p.paints.size = p.cells.size := by
  rw [paints_eq, size_foldl_modifySpan, size_foldl_modifySpan, Array.size_map]

end Picture

end Heapscope
