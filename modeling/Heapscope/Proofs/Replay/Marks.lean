import Heapscope.Proofs.Replay.Opacity

/-!
# Which mark is on top

Strokes are mutations, each played to some fraction.  Of the notes of a kind of mark those last that
add a mark and are not followed by one with the same anchor.  Their marks are in effect, in the
order of the notes, and a byte shows the last one that covers it; nothing else has a part in it.

* `notesOf`, `lasting`, `topmost` -- the notes of a kind, those that last, and the last over a byte;
* `Overlay.marks_apply`, `marks_stroked` -- a note, and any strokes, change the marks of a kind;
* `entries_foldl_noted` -- the marks in effect are those that last;
* `getElem?_drawn` -- the mark that a byte shows is the topmost;
* `painters_law` -- pictures after any strokes.
-/

namespace Heapscope

/-- A mutation that has played to a fraction. -/
structure Stroke where
  mutation : Mutation
  fraction : Binary64

namespace NoteKind

/-- The mark that a note adds or removes. -/
def mark : NoteKind → Mark
  | add mark | remove mark => mark

/-- Whether a note adds its mark. -/
def adds : NoteKind → Bool
  | add _ => true
  | remove _ => false

end NoteKind

/-- The note by which a stroke adds or removes a mark of a kind, and how far it has played. -/
def Stroke.note? (mark : Mark) : Stroke → Option (Note × Binary64)
  | ⟨.annotate note, f⟩ => if note.kind.mark = mark then some (note, f) else none
  | _ => none

/-- The notes of a kind of mark, each with the fraction to which it has played. -/
def notesOf (mark : Mark) (strokes : List Stroke) : List (Note × Binary64) :=
  strokes.filterMap (Stroke.note? mark)

/-- No note has an anchor. -/
def untouched (anchor : UInt32) (notes : List (Note × Binary64)) : Bool :=
  notes.all fun e => e.1.address != anchor

/-- The notes that add a mark and are not followed by a note with the same anchor. -/
def lasting : List (Note × Binary64) → List (Note × Binary64)
  | [] => []
  | (note, f) :: rest =>
    if note.kind.adds && untouched note.address rest then (note, f) :: lasting rest
    else lasting rest

/-- A byte lies under the mark of a note. -/
def Note.covers (note : Note) (b : Nat) : Bool :=
  note.address.toNat ≤ b && b < note.address.toNat + note.extent.toNat

/-- The note whose mark is on top at a byte: the last of those that last and cover it. -/
def topmost (mark : Mark) (strokes : List Stroke) (b : Nat) : Option (Note × Binary64) :=
  ((lasting (notesOf mark strokes)).filter fun e => e.1.covers b).getLast?

/-- What is kept of a mark of a kind. -/
def Mark.Kept : Mark → Type
  | range => RangeMark
  | text => String
  | pointer => UInt32
  | color => ColorMark

namespace Note

/-- The color of the highlight or tint of a note. -/
def paint (note : Note) : Color := note.color.getD Overlay.defaultColor

/-- The opacity of the highlight of a note that has played to a fraction. -/
def opacity (note : Note) (f : Binary64) : Binary64 := note.alpha.getD .half * f

/-- What is kept of a note that adds a mark and has played to a fraction. -/
def kept (note : Note) (f : Binary64) : (mark : Mark) → mark.Kept
  | .range => RangeMark.mk note.extent note.paint (note.opacity f)
  | .text => note.text.getD ""
  | .pointer => note.target.getD note.address
  | .color => ColorMark.mk note.extent note.paint

end Note

/-- The marks of a kind. -/
def Overlay.marks (o : Overlay) : (mark : Mark) → OrderedMap UInt32 mark.Kept
  | .range => o.ranges
  | .text => o.texts
  | .pointer => o.pointers
  | .color => o.colors

/-- The picture that strokes make of another. -/
def Picture.stroked (p : Picture) (strokes : List Stroke) : Picture :=
  strokes.foldl (fun p s => p.apply s.mutation s.fraction) p

/-! ## The marks in effect -/

variable {mark : Mark} {strokes : List Stroke}

/-- Marks of a kind after a note of this kind. -/
def noted (mark : Mark) (m : OrderedMap UInt32 mark.Kept) (e : Note × Binary64) :
    OrderedMap UInt32 mark.Kept :=
  if e.1.kind.adds then m.append e.1.address (e.1.kept e.2 mark) else m.erase e.1.address

/-- A note changes the marks of its own kind. -/
theorem Overlay.marks_apply (o : Overlay) (note : Note) (f : Binary64) (mark : Mark) :
    (o.apply note f).marks mark
      = if note.kind.mark = mark then noted mark (o.marks mark) (note, f) else o.marks mark := by
  unfold Overlay.apply noted
  cases note.kind with
  | add added => cases added <;> cases mark <;> rfl
  | remove removed => cases removed <;> cases mark <;> rfl

theorem Picture.marks_apply (p : Picture) (s : Stroke) (mark : Mark) :
    (p.apply s.mutation s.fraction).overlay.marks mark
      = (s.note? mark).elim (p.overlay.marks mark) (noted mark (p.overlay.marks mark)) := by
  obtain ⟨mutation, f⟩ := s
  cases mutation with
  | annotate note =>
    have note? : Stroke.note? mark ⟨.annotate note, f⟩
        = if note.kind.mark = mark then some (note, f) else none := rfl
    refine (Overlay.marks_apply p.overlay note f mark).trans ?_
    rw [note?]
    split <;> rfl
  | fill | clear | idle => rfl

/-- The notes of a kind change the marks of this kind, in their order. -/
theorem marks_stroked (mark : Mark) (p : Picture) (strokes : List Stroke) :
    (p.stroked strokes).overlay.marks mark
      = (notesOf mark strokes).foldl (noted mark) (p.overlay.marks mark) := by
  induction strokes generalizing p with
  | nil => rfl
  | cons s rest ih =>
    refine (ih (p.apply s.mutation s.fraction)).trans ?_
    rw [Picture.marks_apply]
    unfold notesOf
    rw [List.filterMap_cons]
    cases s.note? mark <;> rfl

/-- The other strokes have no notes of the kind. -/
theorem notesOf_filter (mark : Mark) (strokes : List Stroke) :
    notesOf mark (strokes.filter fun s => (s.note? mark).isSome) = notesOf mark strokes := by
  unfold notesOf
  rw [List.filterMap_filter]
  refine List.filterMap_congr ?_
  intro s _
  cases s.note? mark <;> rfl

theorem lasting_sublist (notes : List (Note × Binary64)) : (lasting notes).Sublist notes := by
  induction notes with
  | nil => exact .slnil
  | cons e rest ih =>
    obtain ⟨note, f⟩ := e
    rw [lasting]
    split
    · exact ih.cons_cons _
    · exact ih.cons _

theorem exists_of_mem_notesOf {e : Note × Binary64}
    (member : e ∈ notesOf mark strokes) : ⟨.annotate e.1, e.2⟩ ∈ strokes := by
  obtain ⟨⟨mutation, f⟩, drawn, note⟩ := List.mem_filterMap.mp member
  unfold Stroke.note? at note
  split at note
  · rename_i same
    cases same
    split at note
    · cases note
      exact drawn
    · cases note
  · cases note

theorem entries_noted (m : OrderedMap UInt32 mark.Kept) (e : Note × Binary64) :
    (noted mark m e).entries = (m.entries.filter fun x => x.1 != e.1.address)
      ++ if e.1.kind.adds then [(e.1.address, e.1.kept e.2 mark)] else [] := by
  unfold noted
  split
  · exact OrderedMap.entries_append m _ _
  · exact (List.append_nil _).symm

/-- Of the marks before, those last that no note has as its anchor; after them come those of the
notes. -/
theorem entries_foldl_noted (m : OrderedMap UInt32 mark.Kept) (notes : List (Note × Binary64)) :
    (notes.foldl (noted mark) m).entries
      = (m.entries.filter fun x => untouched x.1 notes)
        ++ (lasting notes).map fun e => (e.1.address, e.1.kept e.2 mark) := by
  induction notes generalizing m with
  | nil => simp [lasting, untouched]
  | cons e rest ih =>
    obtain ⟨note, f⟩ := e
    -- the note takes its anchor out of the marks before, and lasts if no later one does the same
    have before : m.entries.filter (fun x => untouched x.1 ((note, f) :: rest))
        = (m.entries.filter fun x => x.1 != note.address).filter fun x => untouched x.1 rest := by
      rw [List.filter_filter]
      refine List.filter_congr ?_
      intro x _
      rw [Bool.and_comm, bne_comm]
      rfl
    have own : (if note.kind.adds then [(note.address, note.kept f mark)] else []).filter
          (fun x => untouched x.1 rest)
        ++ (lasting rest).map (fun e => (e.1.address, e.1.kept e.2 mark))
        = (lasting ((note, f) :: rest)).map fun e => (e.1.address, e.1.kept e.2 mark) := by
      rw [lasting]
      cases adds : note.kind.adds <;> cases last : untouched note.address rest <;> simp [last]
    rw [List.foldl_cons, ih, entries_noted, List.filter_append, List.append_assoc, own, before]

/-- The marks in effect are those that last, in the order of their notes. -/
theorem entries_stroked_blank (mark : Mark) (capacity : UInt32) (strokes : List Stroke) :
    (((Picture.blank capacity).stroked strokes).overlay.marks mark).entries
      = (lasting (notesOf mark strokes)).map fun e => (e.1.address, e.1.kept e.2 mark) := by
  have none_before : ((Picture.blank capacity).overlay.marks mark).entries = [] := by
    cases mark <;> rfl
  rw [marks_stroked, entries_foldl_noted, none_before]
  rfl

/-! ## The mark on top -/

section Drawn

variable {α β : Type} {change : β → α → α} {size : β → UInt32}

theorem getElem?_foldl_modifySpan (a : Array α) (spans : List (UInt32 × β)) (b : Nat) :
    (spans.foldl (fun a e => modifySpan (change e.2) a e.1 (size e.2)) a)[b]?
      = a[b]?.map fun x =>
          (spans.filter fun e => e.1.toNat ≤ b && b < e.1.toNat + (size e.2).toNat).foldl
            (fun x e => change e.2 x) x := by
  induction spans generalizing a with
  | nil => exact Option.map_id'.symm
  | cons e rest ih =>
    rw [List.foldl_cons, ih, getElem?_modifySpan]
    by_cases under : e.1.toNat ≤ b ∧ b < e.1.toNat + (size e.2).toNat
    · rw [if_pos under, List.filter_cons_of_pos (by simpa using under), Option.map_map]
      rfl
    · rw [if_neg under, List.filter_cons_of_neg (by simpa using under)]

/-- Of changes that undo each other the last one counts. -/
theorem foldl_of_absorbing {f : β → α → α} (absorbs : ∀ e e' x, f e (f e' x) = f e x)
    (changes : List β) (x : α) :
    changes.foldl (fun x e => f e x) x = changes.getLast?.elim x fun e => f e x := by
  induction changes generalizing x with
  | nil => rfl
  | cons e rest ih =>
    rw [List.foldl_cons, ih, List.getLast?_cons, Option.elim_some]
    cases rest.getLast? with
    | none => rfl
    | some e' => exact absorbs e' e x

/-- A byte shows what is kept of the last of the notes that cover it. -/
theorem getElem?_drawn (change : β → α → α) (size : β → UInt32)
    (absorbs : ∀ e e' x, change e (change e' x) = change e x)
    (kept : Note × Binary64 → β) (extent : ∀ e, size (kept e) = e.1.extent)
    (notes : List (Note × Binary64)) (a : Array α) (b : Nat) :
    ((notes.map fun e => (e.1.address, kept e)).foldl
        (fun a e => modifySpan (change e.2) a e.1 (size e.2)) a)[b]?
      = a[b]?.map fun x => (notes.filter fun e => e.1.covers b).getLast?.elim x
          fun e => change (kept e) x := by
  have covers : (notes.map fun e => (e.1.address, kept e)).filter
        (fun e => e.1.toNat ≤ b && b < e.1.toNat + (size e.2).toNat)
      = (notes.filter fun e => e.1.covers b).map fun e => (e.1.address, kept e) := by
    rw [List.filter_map]
    refine congrArg _ (List.filter_congr ?_)
    intro e _
    simp only [Function.comp_apply, extent]
    rfl
  rw [getElem?_foldl_modifySpan, covers]
  refine congrArg (a[b]?.map ·) (funext fun x => ?_)
  rw [foldl_of_absorbing fun e e' x => absorbs e.2 e'.2 x, List.getLast?_map]
  cases (notes.filter fun e => e.1.covers b).getLast? <;> rfl

end Drawn

/-- A byte shows the topmost tint and the topmost highlight. -/
theorem getElem?_paints_stroked (capacity : UInt32) (strokes : List Stroke) (b : Nat) :
    ((Picture.blank capacity).stroked strokes).paints[b]?
      = ((Picture.blank capacity).stroked strokes).cells[b]?.map fun cell =>
        Paint.mk cell.fill cell.alpha ((topmost .color strokes b).map fun e => e.1.paint)
          ((topmost .range strokes b).map fun e => ⟨e.1.paint, e.1.opacity e.2⟩) := by
  generalize drawn : (Picture.blank capacity).stroked strokes = p
  have colors : p.overlay.colors.entries = (lasting (notesOf .color strokes)).map
      fun e => (e.1.address, ColorMark.mk e.1.extent e.1.paint) :=
    drawn ▸ entries_stroked_blank .color capacity strokes
  have ranges : p.overlay.ranges.entries = (lasting (notesOf .range strokes)).map
      fun e => (e.1.address, RangeMark.mk e.1.extent e.1.paint (e.1.opacity e.2)) :=
    drawn ▸ entries_stroked_blank .range capacity strokes
  have tinted := getElem?_drawn ColorMark.over ColorMark.size (fun _ _ _ => rfl)
    (fun e => ⟨e.1.extent, e.1.paint⟩) (fun _ => rfl)
  have highlighted := getElem?_drawn RangeMark.over RangeMark.size (fun _ _ _ => rfl)
    (fun e => ⟨e.1.extent, e.1.paint, e.1.opacity e.2⟩) (fun _ => rfl)
  rw [Picture.paints_eq, colors, ranges, highlighted, tinted, Array.getElem?_map, Option.map_map,
    Option.map_map]
  refine congrArg (p.cells[b]?.map ·) (funext fun cell => ?_)
  unfold topmost
  cases ((lasting (notesOf .color strokes)).filter fun e => e.1.covers b).getLast? <;>
    cases ((lasting (notesOf .range strokes)).filter fun e => e.1.covers b).getLast? <;> rfl

theorem size_cells_stroked (p : Picture) (strokes : List Stroke) :
    (p.stroked strokes).cells.size = p.cells.size := by
  induction strokes generalizing p with
  | nil => rfl
  | cons s rest ih => exact (ih _).trans (Picture.size_cells_apply ..)

/-- Whatever is drawn on a blank picture, the marks of each kind are those that last, in the order
in which they were applied last, and nothing else has a part in them; a byte is tinted by the last
tint over it, and highlighted by the last highlight, which is as opaque as it has played. -/
theorem painters_law (capacity : UInt32) (strokes : List Stroke) :
    let p := (Picture.blank capacity).stroked strokes
    p.cells.size = capacity.toNat ∧
    (∀ b : Nat, p.paints[b]? = p.cells[b]?.map fun cell =>
      Paint.mk cell.fill cell.alpha ((topmost .color strokes b).map fun e => e.1.paint)
        ((topmost .range strokes b).map fun e => ⟨e.1.paint, e.1.opacity e.2⟩)) ∧
    (∀ mark, (p.overlay.marks mark).entries
      = (lasting (notesOf mark strokes)).map fun e => (e.1.address, e.1.kept e.2 mark)) ∧
    ∀ mark, p.overlay.marks mark = ((Picture.blank capacity).stroked
      (strokes.filter fun s => (s.note? mark).isSome)).overlay.marks mark := by
  refine ⟨?_, getElem?_paints_stroked capacity strokes,
    fun mark => entries_stroked_blank mark capacity strokes, ?_⟩
  · rw [size_cells_stroked]
    exact Array.size_replicate
  · intro mark
    rw [marks_stroked, marks_stroked, notesOf_filter]

/-- A tint that is applied again goes on top. -/
example (first second : Color) (f : Binary64) :
    let wide : Note := { Note.bare (.add .color) 0 with size := some 4, color := some first }
    let narrow : Note := { Note.bare (.add .color) 2 with size := some 2, color := some second }
    (topmost .color [⟨.annotate wide, f⟩, ⟨.annotate narrow, f⟩, ⟨.annotate wide, f⟩] 2).map
      (fun e => e.1.paint) = some first := rfl

end Heapscope
