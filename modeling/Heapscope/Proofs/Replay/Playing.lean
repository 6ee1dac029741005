import Heapscope.Proofs.Micros
import Heapscope.Proofs.Number.Monotone
import Heapscope.Replay.Picture

/-!
# Playing segments

A picture is what the segments that have started leave of a blank one, played in order.  A mutation
changes the cells of its span, each by itself.

* `getElem?_modifySpan` -- the entries of an array of which a span was changed;
* `Call.played` -- how far a call has played: evenly, from its start to its end;
* `Call.playsEvenly` -- that is the share of its length that has passed;
* `Call.fraction_eq` -- its segment plays as far;
* `Picture.play_append`, `Picture.play_of_later` -- segments play until one has not started.
-/

namespace Heapscope

/-! ## Spans of arrays -/

theorem getElem?_modifyFrom {α : Type} (f : α → α) (a : Array α) (start count i : Nat) :
    (modifyFrom f a start count)[i]?
      = if start ≤ i ∧ i < start + count then a[i]?.map f else a[i]? := by
  induction count generalizing a start with
  | zero =>
    have outside : ¬(start ≤ i ∧ i < start + 0) := by omega
    rw [if_neg outside]
    rfl
  | succ count ih =>
    rw [modifyFrom, ih, Array.getElem?_modify]
    by_cases first : start = i
    · have outside : ¬(start + 1 ≤ i ∧ i < start + 1 + count) := by omega
      have inside : start ≤ i ∧ i < start + (count + 1) := by omega
      rw [if_neg outside, if_pos first, if_pos inside]
    · have rest : (start + 1 ≤ i ∧ i < start + 1 + count)
          ↔ (start ≤ i ∧ i < start + (count + 1)) := by omega
      simp only [first, rest, if_false]

/-- A span that reaches beyond the array changes the entries that the array has. -/
theorem getElem?_modifySpan {α : Type} (f : α → α) (a : Array α) (address size : UInt32) (i : Nat) :
    (modifySpan f a address size)[i]?
      = if address.toNat ≤ i ∧ i < address.toNat + size.toNat then a[i]?.map f else a[i]? := by
  unfold modifySpan
  rw [getElem?_modifyFrom]
  by_cases present : i < a.size
  · refine if_congr ?_ rfl rfl
    omega
  · rw [Array.getElem?_eq_none (Nat.le_of_not_lt present)]
    simp

@[simp] theorem size_modifyFrom {α : Type} (f : α → α) (a : Array α) (start count : Nat) :
    (modifyFrom f a start count).size = a.size := by
  induction count generalizing a start with
  | zero => rfl
  | succ count ih => rw [modifyFrom, ih, Array.size_modify]

@[simp] theorem size_modifySpan {α : Type} (f : α → α) (a : Array α) (address size : UInt32) :
    (modifySpan f a address size).size = a.size :=
  size_modifyFrom f a _ _

/-! ## How far a segment has played -/

namespace Segment

variable {s : Segment} {t : Micros}

theorem fraction_of_lt (before : t < s.start) : s.fraction t = none := by
  unfold fraction
  rw [if_pos before]

theorem fraction_of_finish_le (started : s.start ≤ t) (ended : s.finish ≤ t) :
    s.fraction t = some .one := by
  unfold fraction
  rw [if_neg (Micros.not_lt.mpr started), if_pos (.inl ended)]

/-- A segment that has started has played to a number. -/
theorem fraction_of_le (started : s.start ≤ t) :
    ∃ f, s.fraction t = some f ∧ f.isNaN = false := by
  unfold fraction
  rw [if_neg (Micros.not_lt.mpr started)]
  split
  · exact ⟨.one, rfl, by decide⟩
  · rename_i within
    refine ⟨_, rfl, ?_⟩
    rw [not_or, Micros.le_iff, Micros.eq_iff] at within
    rw [Micros.le_iff] at started
    -- between start and finish both lengths are below `2 ^ 64`, and the segment's is not zero
    have bound_t := t.count.toNat_lt
    have bound_finish := s.finish.count.toNat_lt
    refine Binary64.isNaN_div_ofNat ?_ ?_ ?_
    · rw [Micros.toNat_sub]
      omega
    · rw [Micros.toNat_sub]
      omega
    · rw [Micros.toNat_sub]
      omega

end Segment

namespace Call

/-- How far a call has played at a time: not at all before it starts, in full from its end on, and
in between the part of its length that has passed. -/
def played (c : Call) (t : Micros) : Binary64 :=
  let start := c.time.count.toNat
  let finish := c.finish.count.toNat
  let now := t.count.toNat
  if now < start then .zero
  else if finish ≤ now then .one
  else .ofNat (now - start) / .ofNat (finish - start)

variable {c : Call} {t : Micros}

theorem played_of_finish_le (ended : c.finish ≤ t) : c.played t = .one := by
  have starts := c.time_le_finish
  rw [Micros.le_iff] at starts ended
  unfold played
  simp only
  rw [if_neg (by omega), if_pos ended]

theorem played_of_lt_finish (started : c.time ≤ t) (playing : t < c.finish) :
    c.played t = .ofNat (t.count.toNat - c.time.count.toNat)
      / .ofNat (c.finish.count.toNat - c.time.count.toNat) := by
  rw [Micros.le_iff] at started
  rw [Micros.lt_iff] at playing
  unfold played
  simp only
  rw [if_neg (by omega), if_neg (by omega)]

/-- A call plays evenly: nothing before its start, all of it from its end on, and in between the
share of its length that has passed, up to rounding. -/
structure PlaysEvenly (c : Call) : Prop where
  waits : ∀ t, t < c.time → c.played t = .zero
  plays : ∀ t, c.time ≤ t → t < c.finish →
    (c.played t).isFinite = true ∧ (c.played t).negative = false ∧
      Binary64.Near (2 ^ (-50 : Int)) (c.played t).absRat
        ((t.count.toNat - c.time.count.toNat : Nat)
          / (c.finish.count.toNat - c.time.count.toNat : Nat))
  ends : ∀ t, c.finish ≤ t → c.played t = .one

theorem playsEvenly (c : Call) : c.PlaysEvenly where
  waits t waits := if_pos (Micros.lt_iff.mp waits)
  plays t started playing := by
    rw [played_of_lt_finish started playing]
    rw [Micros.le_iff] at started
    rw [Micros.lt_iff] at playing
    have bound := c.finish.count.toNat_lt
    exact Binary64.div_ofNat_near (by omega) (by omega) (by omega)
  ends t ended := played_of_finish_le ended

/-- The segment of a call plays as far as the call. -/
theorem fraction_eq (started : c.time ≤ t) (index : Nat) (mutation : Mutation) :
    Segment.fraction ⟨index, c.time, c.finish, mutation⟩ t = some (c.played t) := by
  by_cases ended : c.finish ≤ t
  · rw [Segment.fraction_of_finish_le started ended, played_of_finish_le ended]
  · have playing : t < c.finish := Micros.not_le.mp ended
    rw [played_of_lt_finish started playing]
    rw [Micros.le_iff] at started
    rw [Micros.lt_iff] at playing
    have proper : ¬(c.finish ≤ t ∨ c.finish = c.time) := by
      rw [Micros.le_iff, Micros.eq_iff]
      omega
    unfold Segment.fraction
    rw [if_neg (Micros.not_lt.mpr (Micros.le_iff.mpr started)), if_neg proper]
    simp only [Micros.toNat_sub]

theorem isNaN_played (started : c.time ≤ t) : (c.played t).isNaN = false := by
  obtain ⟨f, fraction, number⟩ :=
    Segment.fraction_of_le (s := ⟨0, c.time, c.finish, .idle⟩) started
  rw [fraction_eq started] at fraction
  rw [Option.some.inj fraction]
  exact number

end Call

/-! ## Playing in order -/

namespace Picture

variable {p : Picture} {t : Micros}

theorem play_append {xs : List Segment} (ys : List Segment) (started : ∀ s ∈ xs, s.start ≤ t) :
    ofSegments.play t p (xs ++ ys) = ofSegments.play t (ofSegments.play t p xs) ys := by
  induction xs generalizing p with
  | nil => rfl
  | cons s rest ih =>
    obtain ⟨first, others⟩ := List.forall_mem_cons.mp started
    obtain ⟨f, fraction, -⟩ := Segment.fraction_of_le first
    -- the first segment that has not started ends the play, and none of these is one
    rw [List.cons_append, ofSegments.play, ofSegments.play, fraction]
    exact ih others

theorem play_singleton {s : Segment} {f : Binary64} (fraction : s.fraction t = some f) :
    ofSegments.play t p [s] = p.apply s.mutation f := by
  rw [ofSegments.play, fraction]
  rfl

theorem size_cells_apply (p : Picture) (mutation : Mutation) (f : Binary64) :
    (p.apply mutation f).cells.size = p.cells.size := by
  cases mutation with
  | fill | clear => exact size_modifySpan _ _ _ _
  | annotate | idle => rfl

/-- Playing keeps the number of cells. -/
theorem size_cells_ofSegments (capacity : UInt32) (segments : List Segment) (t : Micros) :
    (ofSegments capacity segments t).cells.size = capacity.toNat := by
  have play : ∀ p, (ofSegments.play t p segments).cells.size = p.cells.size := by
    induction segments with
    | nil => exact fun _ => rfl
    | cons s rest ih =>
      intro p
      rw [ofSegments.play]
      split
      · rw [ih, size_cells_apply]
      · rfl
  rw [ofSegments, play]
  exact Array.size_replicate

/-- Nothing plays when the first segment has not started. -/
theorem play_of_later {segments : List Segment} (later : ∀ s ∈ segments.head?, t < s.start) :
    ofSegments.play t p segments = p := by
  cases segments with
  | nil => rfl
  | cons s rest => rw [ofSegments.play, Segment.fraction_of_lt (later s rfl)]

end Picture

end Heapscope
