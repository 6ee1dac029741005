import Heapscope.Proofs.Replay.Moves

/-!
# Views that store what is painted

Most views can be asked how a cell looks: it looks as it was painted last.  Painting the cells of a
list of handles leaves each with its own paint, and painting only those that differ from before
leaves no cell with another look than painting all of them.

* `StoringView` -- a view whose cells look as they were painted last;
* `View.look_paintAll` -- every cell after all were painted;
* `View.look_paintChanged` -- every cell after those that differ were painted.
-/

namespace Heapscope

/-- A view whose cells look as they were painted last. -/
class StoringView (ν : Type) [View ν] extends LawfulView ν where
  /-- The view has room for all of its cells. -/
  Intact : ν → Prop
  /-- How a cell looks. -/
  look : ν → Nat → Paint
  /-- The cell of a handle. -/
  cell : View.Handle ν → Nat
  cells_ok : ∀ (view : ν) (address size : UInt32) (handles : List (View.Handle ν)),
    View.cells view address size = .ok handles →
      handles.map cell = List.range' address.toNat size.toNat
  intact_paint : ∀ (view : ν) (handle : View.Handle ν) (p : Paint),
    Intact view → Intact (View.paint view handle p)
  look_paint : ∀ (view : ν) (handle : View.Handle ν) (p : Paint) (b : Nat),
    Intact view → b < (View.capacity view).toNat →
      look (View.paint view handle p) b = if b = cell handle then p else look view b

namespace Canvas

/-- A canvas stores its cells in an array, by address. -/
instance : StoringView Canvas where
  Intact c := c.cells.size = c.capacity.toNat
  look c b := c.cells.getD b {}
  cell index := index
  cells_ok := by
    intro c address size handles ok
    obtain ⟨-, -, eq⟩ := exists_of_bind_ok ok
    cases eq
    exact List.map_id _
  intact_paint := by
    intro c index p intact
    exact (Array.size_setIfInBounds).trans intact
  look_paint := by
    intro c index p b intact inside
    have present : b < c.cells.size := intact ▸ inside
    show (c.cells.setIfInBounds index p).getD b {} = if b = index then p else c.cells.getD b {}
    rw [Array.getD_eq_getD_getElem?, Array.getD_eq_getD_getElem?, Array.getElem?_setIfInBounds]
    by_cases same : index = b
    · subst same
      simp [present]
    · rw [if_neg same, if_neg (Ne.symm same)]

theorem intact_blank (capacity : UInt32) : StoringView.Intact (blank capacity) :=
  Array.size_replicate

end Canvas

namespace View

open StoringView

variable {ν : Type} [View ν] [StoringView ν] {view : ν} {h : Handle ν} {handles : List (Handle ν)}

theorem intact_paintAll {paints : List Paint} (intact : Intact view) :
    Intact (paintAll view handles paints) := by
  induction handles generalizing view paints with
  | nil => exact intact
  | cons h rest ih =>
    cases paints with
    | nil => exact intact
    | cons p more => exact ih (intact_paint view h p intact)

theorem intact_paintChanged {news olds : List Paint} (intact : Intact view) :
    Intact (paintChanged view handles news olds) := by
  induction handles generalizing view news olds with
  | nil => exact intact
  | cons h rest ih =>
    cases news with
    | nil => exact intact
    | cons new more =>
      cases olds with
      | nil => exact intact
      | cons old others =>
        refine ih ?_
        split
        · exact intact
        · exact intact_paint view h new intact

variable {start b : Nat}

/-- The handles of consecutive cells begin with that of the first cell. -/
theorem cells_cons {n : Nat} (cells : (h :: handles).map cell = List.range' start (n + 1)) :
    cell h = start ∧ handles.map cell = List.range' (start + 1) n := by
  rw [List.map_cons, List.range'_succ] at cells
  exact List.cons.inj cells

theorem look_paintAll_of_lt {paints : List Paint} (intact : Intact view)
    (inside : b < (capacity view).toNat)
    (cells : handles.map cell = List.range' start paints.length) (before : b < start) :
    look (paintAll view handles paints) b = look view b := by
  induction paints generalizing view handles start with
  | nil =>
    cases handles <;> rfl
  | cons p rest ih =>
    cases handles with
    | nil => rfl
    | cons h others =>
      obtain ⟨first, cells⟩ := cells_cons cells
      rw [paintAll, ih (intact_paint view h p intact) (by rwa [LawfulView.capacity_paint]) cells
        (by omega), look_paint view h p b intact inside, first, if_neg (by omega)]

/-- After all cells were painted, each looks as its own paint. -/
theorem look_paintAll {paints : List Paint} {i : Nat} {p : Paint} (intact : Intact view)
    (inside : start + i < (capacity view).toNat)
    (cells : handles.map cell = List.range' start paints.length) (at_i : paints[i]? = some p) :
    look (paintAll view handles paints) (start + i) = p := by
  induction paints generalizing view handles start i with
  | nil => simp at at_i
  | cons q rest ih =>
    cases handles with
    | nil => simp [List.range'_succ] at cells
    | cons h others =>
      obtain ⟨first, cells⟩ := cells_cons cells
      have intact' := intact_paint view h q intact
      have same_capacity := LawfulView.capacity_paint view h q
      rw [paintAll]
      cases i with
      | zero =>
        -- what is painted later lies behind the first cell
        rw [look_paintAll_of_lt intact' (by rwa [same_capacity]) cells (by omega),
          look_paint view h q _ intact inside, if_pos (by omega)]
        simpa using at_i
      | succ i =>
        rw [← Nat.succ_add_eq_add_succ] at inside ⊢
        exact ih intact' (by rwa [same_capacity]) cells (by simpa using at_i)

theorem look_paintChanged_of_lt {news olds : List Paint} (intact : Intact view)
    (inside : b < (capacity view).toNat) (cells : handles.map cell = List.range' start news.length)
    (before : b < start) : look (paintChanged view handles news olds) b = look view b := by
  induction news generalizing view handles olds start with
  | nil => cases handles <;> rfl
  | cons new rest ih =>
    cases handles with
    | nil => rfl
    | cons h others =>
      cases olds with
      | nil => rfl
      | cons old more =>
        obtain ⟨first, cells⟩ := cells_cons cells
        rw [paintChanged]
        split
        · exact ih intact inside cells (by omega)
        · rw [ih (intact_paint view h new intact) (by rwa [LawfulView.capacity_paint]) cells
            (by omega), look_paint view h new b intact inside, first, if_neg (by omega)]

/-- After the cells that differ were painted, each of these looks as its own paint and the others
look as they did. -/
theorem look_paintChanged {news olds : List Paint} {i : Nat} {new old : Paint}
    (intact : Intact view) (inside : start + i < (capacity view).toNat)
    (cells : handles.map cell = List.range' start news.length) (new_i : news[i]? = some new)
    (old_i : olds[i]? = some old) :
    look (paintChanged view handles news olds) (start + i)
      = if new.same old then look view (start + i) else new := by
  induction news generalizing view handles olds start i with
  | nil => simp at new_i
  | cons n rest ih =>
    cases handles with
    | nil => simp [List.range'_succ] at cells
    | cons h others =>
      cases olds with
      | nil => simp at old_i
      | cons o more =>
        obtain ⟨first, cells⟩ := cells_cons cells
        have intact' := intact_paint view h n intact
        have same_capacity := LawfulView.capacity_paint view h n
        rw [paintChanged]
        cases i with
        | zero =>
          simp only [List.getElem?_cons_zero, Option.some.injEq] at new_i old_i
          subst new_i old_i
          split
          · exact look_paintChanged_of_lt intact inside cells (by omega)
          · rw [look_paintChanged_of_lt intact' (by rwa [same_capacity]) cells (by omega),
              look_paint view h n _ intact inside, if_pos (by omega)]
        | succ i =>
          rw [← Nat.succ_add_eq_add_succ] at inside ⊢
          rw [List.getElem?_cons_succ] at new_i old_i
          by_cases same : n.same o = true
          · rw [if_pos same]
            exact ih intact inside cells new_i old_i
          · -- the first cell is not the one that is looked at
            have unchanged :
                look (paint view h n) (start.succ + i) = look view (start.succ + i) := by
              rw [look_paint view h n _ intact inside, if_neg (by omega)]
            rw [if_neg same, ← unchanged]
            exact ih intact' (by rwa [same_capacity]) cells new_i old_i

end View

end Heapscope
