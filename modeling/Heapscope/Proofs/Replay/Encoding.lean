import Heapscope.Proofs.OrderedMap
import Heapscope.Proofs.Trace.Encoding
import Heapscope.Replay.Picture

/-!
# What the digest of a picture is taken of

The byte sequence behind the digest of a picture has five sections: the cells, which are not counted
and differ in length, and the marks of four kinds, each kind preceded by the number of its marks.  A
cell ends where its tag says, a section of marks where its number says and a label where its length
says, so pictures of as many cells are read from it in one way only, and no mark passes for one of
another kind.

* `told_flatMap`, `told_marks` -- lists of as many elements, and maps of any size, are told apart;
* `told_picture` -- so are pictures of as many cells, section by section;
* `Picture.encoding_determines` -- pictures with the same byte sequence are the same, so two
  pictures of one digest are a collision of the digest.
-/

namespace Heapscope

namespace Encode

variable {α ν : Type}

/-! ## Lists and maps -/

/-- By induction on the lists: each element ends where the next begins, and the lists end
together. -/
theorem told_flatMap {encode : α → List UInt8} {l l' : List α} (lengths : l.length = l'.length)
    (elements : ∀ a ∈ l, ∀ b ∈ l', Told encode a b) : Told (List.flatMap encode) l l' := by
  induction l generalizing l' with
  | nil =>
    intro u v same
    cases List.length_eq_zero_iff.mp lengths.symm
    exact ⟨rfl, same⟩
  | cons a rest ih =>
    cases l' with
    | nil => cases lengths
    | cons b rest' =>
      intro u v same
      rw [List.flatMap_cons, List.flatMap_cons, List.append_assoc, List.append_assoc] at same
      obtain ⟨rfl, others_same⟩ := elements a List.mem_cons_self b List.mem_cons_self same
      have others : ∀ c ∈ rest, ∀ d ∈ rest', Told encode c d := by
        intro c hc d hd
        exact elements c (List.mem_cons_of_mem a hc) d (List.mem_cons_of_mem a hd)
      obtain ⟨rfl, behind⟩ := ih (Nat.succ.inj lengths) others others_same
      exact ⟨rfl, behind⟩

/-- The number in front tells how many marks there are, and each mark is told by its anchor and its
contents. -/
theorem told_marks {encode : ν → List UInt8} {m m' : OrderedMap UInt32 ν}
    (contents : ∀ e ∈ m.entries, ∀ e' ∈ m'.entries, Told encode e.2 e'.2) :
    Told (marks encode) m m' := by
  intro u v same
  unfold marks length at same
  rw [List.append_assoc, List.append_assoc] at same
  have small : m.size < 256 ^ 8 := Nat.lt_of_le_of_lt m.size_le_two_pow (by decide)
  have small' : m'.size < 256 ^ 8 := Nat.lt_of_le_of_lt m'.size_le_two_pow (by decide)
  obtain ⟨sizes, same⟩ := told_littleEndian 8 small small' same
  have entries : ∀ e ∈ m.entries, ∀ e' ∈ m'.entries,
      Told (fun e => word e.1 ++ encode e.2) e e' := by
    intro e he e' he' u v same
    rw [List.append_assoc, List.append_assoc] at same
    obtain ⟨anchors, same⟩ := told_word e.1 e'.1 same
    obtain ⟨values, behind⟩ := contents e he e' he' same
    exact ⟨Prod.ext anchors values, behind⟩
  obtain ⟨eq, behind⟩ := told_flatMap sizes entries same
  exact ⟨OrderedMap.ext eq, behind⟩

/-! ## Cells and marks -/

theorem told_cell (c d : Cell) :
    Told (fun c : Cell => optional color c.fill ++ binary64 c.alpha) c d := by
  intro u v same
  simp only [List.append_assoc] at same
  obtain ⟨fills, same⟩ := told_optionalColor c.fill d.fill same
  obtain ⟨alphas, behind⟩ := told_binary64 c.alpha d.alpha same
  cases c
  cases d
  cases fills
  cases alphas
  exact ⟨rfl, behind⟩

theorem told_rangeMark (m n : RangeMark) :
    Told (fun m : RangeMark => word m.size ++ color m.color ++ binary64 m.alpha) m n := by
  intro u v same
  simp only [List.append_assoc] at same
  obtain ⟨sizes, same⟩ := told_word m.size n.size same
  obtain ⟨colors, same⟩ := told_color m.color n.color same
  obtain ⟨alphas, behind⟩ := told_binary64 m.alpha n.alpha same
  cases m
  cases n
  cases sizes
  cases colors
  cases alphas
  exact ⟨rfl, behind⟩

theorem told_colorMark (m n : ColorMark) :
    Told (fun m : ColorMark => word m.size ++ color m.color) m n := by
  intro u v same
  simp only [List.append_assoc] at same
  obtain ⟨sizes, same⟩ := told_word m.size n.size same
  obtain ⟨colors, behind⟩ := told_color m.color n.color same
  cases m
  cases n
  cases sizes
  cases colors
  exact ⟨rfl, behind⟩

end Encode

/-! ## Pictures -/

/-- No label of the picture has more bytes than eight bytes can count, as no text in memory has. -/
def Picture.Short (p : Picture) : Prop := ∀ e ∈ p.overlay.texts.entries, Encode.Short e.2

namespace Encode

/-- Pictures of as many cells are told apart, whatever follows them. -/
theorem told_picture {p q : Picture} (sizes : p.cells.size = q.cells.size) (short : p.Short)
    (short' : q.Short) : Told picture p q := by
  intro u v same
  obtain ⟨cells, ranges, texts, pointers, colors⟩ := p
  obtain ⟨cells', ranges', texts', pointers', colors'⟩ := q
  unfold picture at same
  simp only [List.append_assoc] at same
  obtain ⟨eq_cells, same⟩ := told_flatMap sizes (fun c _ d _ => told_cell c d) same
  obtain ⟨eq_ranges, same⟩ := told_marks (fun e _ e' _ => told_rangeMark e.2 e'.2) same
  obtain ⟨eq_texts, same⟩ :=
    told_marks (fun e he e' he' => told_text (short e he) (short' e' he')) same
  obtain ⟨eq_pointers, same⟩ := told_marks (fun e _ e' _ => told_word e.2 e'.2) same
  obtain ⟨eq_colors, behind⟩ := told_marks (fun e _ e' _ => told_colorMark e.2 e'.2) same
  have eq_cells := Array.toList_inj.mp eq_cells
  subst eq_cells eq_ranges eq_texts eq_pointers eq_colors
  exact ⟨rfl, behind⟩

end Encode

namespace Picture

/-- Pictures of as many cells have the same byte sequence only if they are the same, with the same
fill and opacity in every cell and the same marks of each kind in the same order, opacities by their
bits.  So different pictures have one digest only if it collides. -/
theorem encoding_determines (p q : Picture) (sizes : p.cells.size = q.cells.size) (short : p.Short)
    (short' : q.Short) :
    (Encode.picture p = Encode.picture q ↔ p = q) ∧
    (p.digest = q.digest ↔ p = q ∨
      (Encode.picture p ≠ Encode.picture q ∧
        Heapscope.digest (Encode.picture p) = Heapscope.digest (Encode.picture q))) := by
  have told : Encode.picture p = Encode.picture q ↔ p = q := by
    constructor
    · intro same
      exact (Encode.told_picture sizes short short' (congrArg (· ++ []) same)).1
    · rintro rfl
      rfl
  refine ⟨told, ?_⟩
  constructor
  · intro same
    by_cases equal : p = q
    · exact .inl equal
    · exact .inr ⟨fun bytes => equal (told.mp bytes), same⟩
  · rintro (rfl | ⟨-, same⟩)
    · rfl
    · exact same

/-- A byte with an empty label over it. -/
def labelledByte : Picture where
  cells := #[{}]
  overlay := { texts := ⟨[(0, "")], by simp⟩ }

/-- A byte with a tint over it, which takes as many bytes to spell out as the label. -/
def tintedByte : Picture where
  cells := #[{}]
  overlay := { colors := ⟨[(0, ⟨1, Overlay.defaultColor⟩)], by simp⟩ }

theorem encoding_determines_of_labelledByte :
    labelledByte.cells.size = tintedByte.cells.size ∧ labelledByte.Short ∧ tintedByte.Short ∧
      (Encode.picture labelledByte).length = (Encode.picture tintedByte).length ∧
      Encode.picture labelledByte ≠ Encode.picture tintedByte := by
  have short : labelledByte.Short := by
    intro e member
    cases List.mem_singleton.mp member
    show "".toUTF8.toList.length < 2 ^ 64
    decide +kernel
  have short' : tintedByte.Short := by
    intro e member
    cases member
  refine ⟨rfl, short, short', by decide +kernel, fun same => ?_⟩
  have equal := (encoding_determines labelledByte tintedByte rfl short short').1.mp same
  exact absurd (congrArg (fun p => p.overlay.texts.size) equal) (by decide)

end Picture

end Heapscope
