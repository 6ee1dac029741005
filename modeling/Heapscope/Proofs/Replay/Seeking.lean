import Heapscope.Proofs.Replay.Opacity
import Heapscope.Proofs.Replay.Painting

/-!
# Seeking

A timeline moves by painting the cells that differ from what it painted last, and the view still
looks as if all cells had been painted.  What is shown depends on the time alone: it is what the
calls that have started leave of a blank picture.

* `PlayedBy`, `segments_playedBy` -- the segment of each call;
* `Picture.ofSegments_eq_foldl` -- a picture as a fold over the segments that have started;
* `Timeline.Current`, `Timeline.Repainted` -- what every move keeps, the look of all cells included;
* `Timeline.moved_agrees_with_time` -- what is shown after any moves.
-/

namespace Heapscope

/-! ## The segments of calls -/

/-- The size of the block at an address after calls, as these tell it. -/
def sizeAt (address : UInt32) (calls : List Call) : Option UInt32 :=
  calls.foldl (fun size c =>
    match c.op with
    | .malloc n _ _ => if c.result = some address then some n else size
    | .free a _ => if a = some address then none else size
    | .sleep | .annotate _ => size) none

/-- What a call plays when it comes after the given ones. -/
inductive Call.Plays (done : List Call) (c : Call) : Mutation → Prop
  | malloc {size address : UInt32} {pinned : Option UInt32} {color : Option Color}
      (op : c.op = .malloc size pinned color) (result : c.result = some address) :
      c.Plays done (.fill address size (color.getD Mutation.defaultColor))
  | free {size address : UInt32} {color : Option Color} (op : c.op = .free (some address) color)
      (allocated : sizeAt address done = some size) : c.Plays done (.clear address size)
  | sleep (op : c.op = .sleep) : c.Plays done .idle
  | annotate {note : Note} (op : c.op = .annotate note) : c.Plays done (.annotate note)

/-- Each call has its segment, and there are no others. -/
structure PlayedBy (calls : List Call) (segments : List Segment) : Prop where
  length_eq : segments.length = calls.length
  plays : ∀ (i : Nat) (c : Call), calls[i]? = some c →
    ∃ m, segments[i]? = some ⟨i, c.time, c.finish, m⟩ ∧ c.Plays (calls.take i) m

/-- The map of sizes holds what the calls tell about every address. -/
theorem plays_of_mutation {done : List Call} {c : Call} {live live' : BlockSizes} {index : Nat}
    {m : Mutation} (sizes : ∀ a, live.find? a = sizeAt a done)
    (ok : c.mutation index live = .ok (m, live')) :
    c.Plays done m ∧ ∀ a, live'.find? a = sizeAt a (done ++ [c]) := by
  unfold Call.mutation at ok
  unfold sizeAt at sizes ⊢
  simp only [List.foldl_append, List.foldl_cons, List.foldl_nil, ← sizes]
  split at ok
  · rename_i size pinned color op
    split at ok
    · cases ok
    · rename_i address result
      cases ok
      refine ⟨.malloc op result, fun a => ?_⟩
      rw [OrderedMap.find?_insert, op, result]
      simp only [Option.some.injEq, eq_comm]
  · cases ok
  · rename_i address color op
    split at ok
    · cases ok
    · rename_i size found
      cases ok
      refine ⟨.free op ((sizes address).symm.trans found), fun a => ?_⟩
      rw [OrderedMap.find?_erase, op]
      simp only [Option.some.injEq, eq_comm]
  · rename_i op
    cases ok
    exact ⟨.sleep op, fun a => by rw [op]⟩
  · rename_i note op
    cases ok
    exact ⟨.annotate op, fun a => by rw [op]⟩

theorem plays_of_segmentsFrom {done calls : List Call} {live : BlockSizes}
    {segments : List Segment} (sizes : ∀ a, live.find? a = sizeAt a done)
    (ok : segmentsFrom done.length live calls = .ok segments) :
    segments.length = calls.length ∧ ∀ (i : Nat) (c : Call), calls[i]? = some c →
      ∃ m, segments[i]? = some ⟨done.length + i, c.time, c.finish, m⟩ ∧
        c.Plays (done ++ calls.take i) m := by
  induction calls generalizing done live segments with
  | nil =>
    cases ok
    exact ⟨rfl, fun i c at_i => by simp at at_i⟩
  | cons c rest ih =>
    unfold segmentsFrom at ok
    obtain ⟨⟨m, live'⟩, mutation, ok⟩ := exists_of_bind_ok ok
    obtain ⟨others, tail, ok⟩ := exists_of_bind_ok ok
    cases ok
    obtain ⟨plays, sizes'⟩ := plays_of_mutation sizes mutation
    have next : (done ++ [c]).length = done.length + 1 := List.length_append
    obtain ⟨length_eq, later⟩ := ih sizes' (next ▸ tail)
    refine ⟨congrArg (· + 1) length_eq, ?_⟩
    intro i c' at_i
    cases i with
    | zero =>
      cases at_i
      exact ⟨m, rfl, by rwa [List.take_zero, List.append_nil]⟩
    | succ i =>
      obtain ⟨m', segment, plays'⟩ := later i c' at_i
      rw [next, Nat.add_assoc, Nat.add_comm 1 i] at segment
      refine ⟨m', segment, ?_⟩
      rwa [List.take_succ_cons, List.append_cons]

theorem segments_playedBy {trace : Trace} {segments : List Segment}
    (ok : trace.segments = .ok segments) : PlayedBy trace.calls segments := by
  have sizes : ∀ a, (OrderedMap.empty : BlockSizes).find? a = sizeAt a [] := fun _ => rfl
  obtain ⟨length_eq, plays⟩ := plays_of_segmentsFrom sizes ok
  refine ⟨length_eq, ?_⟩
  intro i c at_i
  obtain ⟨m, segment, plays⟩ := plays i c at_i
  rw [List.length_nil, Nat.zero_add] at segment
  exact ⟨m, segment, plays⟩

namespace PlayedBy

variable {calls : List Call} {segments : List Segment}

/-- What a segment has of its call alone, the segments have in the order of the calls. -/
theorem map_eq {α : Type} {f : Segment → α} {g : Call → α} (played : PlayedBy calls segments)
    (same : ∀ i done c m, c.Plays done m → f ⟨i, c.time, c.finish, m⟩ = g c) :
    segments.map f = calls.map g := by
  apply List.ext_getElem?
  intro i
  rw [List.getElem?_map, List.getElem?_map]
  cases at_i : calls[i]? with
  | none =>
    rw [List.getElem?_eq_none_iff] at at_i
    rw [List.getElem?_eq_none (played.length_eq ▸ at_i)]
    rfl
  | some c =>
    obtain ⟨m, segment, plays⟩ := played.plays i c at_i
    rw [segment]
    exact congrArg some (same i _ c m plays)

theorem starts_eq (played : PlayedBy calls segments) :
    segments.map Segment.start = calls.map Call.time :=
  played.map_eq fun _ _ _ _ _ => rfl

/-- The segments of a sorted list start one after the other. -/
theorem sorted (played : PlayedBy calls segments) (inOrder : InOrder calls) :
    segments.Pairwise fun a b => a.start ≤ b.start := by
  rw [← List.pairwise_map (f := Segment.start) (R := (· ≤ ·)), played.starts_eq, List.pairwise_map]
  refine inOrder.imp ?_
  intro a b ordered
  rw [Bool.not_eq_true', ← Bool.not_eq_true, before_iff] at ordered
  rw [Micros.le_iff]
  omega

/-- A valid note in a segment is the note of its call. -/
theorem checkAlpha {capacity : UInt32} (played : PlayedBy calls segments)
    (notes : Timeline.checkNotes capacity calls = .ok ()) :
    ∀ s ∈ segments, ∀ note, s.mutation = .annotate note → note.checkAlpha = .ok () := by
  rintro s member note annotates
  obtain ⟨i, inside, at_i⟩ := List.mem_iff_getElem.mp member
  obtain ⟨c, call⟩ : ∃ c, calls[i]? = some c :=
    ⟨_, List.getElem?_eq_getElem (played.length_eq ▸ inside)⟩
  obtain ⟨m, segment, plays⟩ := played.plays i c call
  rw [List.getElem?_eq_getElem inside, at_i, Option.some.injEq] at segment
  subst segment
  cases annotates
  cases plays with
  | annotate op =>
    have valid := Timeline.checkNotes_ok_iff.mp notes _ (List.mem_of_getElem? call) note op
    exact (Note.validate_ok_iff.mp valid).2.1

end PlayedBy

/-! ## Pictures as folds -/

namespace Segment

/-- How far a segment has played at a time; zero before it starts. -/
def played (s : Segment) (t : Micros) : Binary64 := (s.fraction t).getD .zero

theorem fraction_of_started {s : Segment} {t : Micros} (started : s.start ≤ t) :
    s.fraction t = some (s.played t) := by
  obtain ⟨f, fraction, -⟩ := fraction_of_le started
  unfold played
  rw [fraction]
  rfl

end Segment

variable {segments : List Segment} {t : Micros}

/-- Behind a segment that has not started none has. -/
theorem not_started_of_sorted {s : Segment} {rest : List Segment}
    (sorted : (s :: rest).Pairwise fun a b => a.start ≤ b.start) (waits : ¬s.start ≤ t) :
    ∀ s' ∈ s :: rest, ¬s'.start ≤ t := by
  intro s' member
  rcases List.mem_cons.mp member with rfl | behind
  · exact waits
  · have le := (List.pairwise_cons.mp sorted).1 s' behind
    rw [Micros.le_iff] at le waits ⊢
    omega

theorem Picture.play_eq_foldl {p : Picture}
    (sorted : segments.Pairwise fun a b => a.start ≤ b.start) :
    ofSegments.play t p segments
      = (segments.filter fun s => s.start ≤ t).foldl
          (fun p s => p.apply s.mutation (s.played t)) p := by
  induction segments generalizing p with
  | nil => rfl
  | cons s rest ih =>
    by_cases started : s.start ≤ t
    · rw [ofSegments.play, Segment.fraction_of_started started, List.filter_cons,
        if_pos (decide_eq_true started), List.foldl_cons]
      exact ih (List.pairwise_cons.mp sorted).2
    · have none_started : (s :: rest).filter (fun s => s.start ≤ t) = [] := by
        rw [List.filter_eq_nil_iff]
        intro s' member
        simpa using not_started_of_sorted sorted started s' member
      have later : t < s.start := Micros.lt_iff.mpr (by rw [Micros.le_iff] at started; omega)
      rw [none_started, ofSegments.play, Segment.fraction_of_lt later]
      rfl

/-- A picture is what the segments that have started leave of a blank one, in their order. -/
theorem Picture.ofSegments_eq_foldl (capacity : UInt32)
    (sorted : segments.Pairwise fun a b => a.start ≤ b.start) :
    ofSegments capacity segments t
      = (segments.filter fun s => s.start ≤ t).foldl
          (fun p s => p.apply s.mutation (s.played t)) (blank capacity) :=
  play_eq_foldl sorted

namespace Timeline

/-- The leading segments that have started are all that have. -/
theorem reachedAt_eq_countP (sorted : segments.Pairwise fun a b => a.start ≤ b.start) :
    reachedAt segments t = segments.countP fun s => s.start ≤ t := by
  unfold reachedAt
  induction segments with
  | nil => rfl
  | cons s rest ih =>
    by_cases started : s.start ≤ t
    · rw [List.takeWhile_cons, if_pos (decide_eq_true started), List.length_cons, List.countP_cons,
        if_pos (decide_eq_true started), ih (List.pairwise_cons.mp sorted).2]
    · have none_started : (s :: rest).countP (fun s => s.start ≤ t) = 0 := by
        rw [List.countP_eq_zero]
        intro s' member
        simpa using not_started_of_sorted sorted started s' member
      rw [none_started, List.takeWhile_cons, if_neg (by simpa using started)]
      rfl

variable {ν : Type} [View ν]

/-- What holds at first and after every move to a time holds after any moves. -/
theorem Moved.keeps {P : Timeline ν → Prop} {r s : Timeline ν} (moved : r.Moved s) (first : P r)
    (resolve : ∀ s t p, P s → P { s.resolve t with progress := p }) : P s := by
  induction moved with
  | refl => exact first
  | setProgress p _ ok ih =>
    unfold Timeline.setProgress at ok
    split at ok
    · cases ok
    · simp only at ok
      split at ok
      · cases ok
        exact ih
      · cases ok
        exact resolve _ _ _ ih
  | seek t _ ih => exact resolve _ _ _ ih
  | next _ ih =>
    unfold Timeline.next
    split
    · exact resolve _ _ _ ih
    · exact resolve _ _ _ ih
  | prev _ ih =>
    unfold Timeline.prev
    split
    · exact resolve _ _ _ ih
    · exact resolve _ _ _ ih

/-! ## What every move keeps -/

/-- A timeline shows the picture of its time, as it was painted, and counts the calls. -/
structure Current (trace : Trace) (segments : List Segment) (capacity : UInt32)
    (r : Timeline ν) : Prop extends Showing trace segments capacity r where
  reached_eq : r.reached = reachedAt segments r.time
  painted_eq : r.painted = r.picture.paints

namespace Current

variable {trace : Trace} {capacity : UInt32} {r s : Timeline ν}

theorem opened [LawfulView ν] (view : ν) (handles : List (View.Handle ν)) :
    Current trace segments (View.capacity view) (opened trace view segments handles) where
  toShowing := .opened view handles
  reached_eq := rfl
  painted_eq := rfl

theorem resolve [LawfulView ν] (current : Current trace segments capacity r) (t : Micros)
    (p : Binary64) : Current trace segments capacity { r.resolve t with progress := p } where
  toShowing := current.toShowing.resolve t p
  reached_eq := by
    show reachedAt r.segments t = reachedAt segments t
    rw [current.segments_eq]
  painted_eq := rfl

theorem painted_of_time (current : Current trace segments capacity r) :
    r.painted = (Picture.ofSegments capacity segments r.time).paints := by
  rw [current.painted_eq, current.picture_eq]

/-- Timelines of one trace at one time show the same. -/
theorem agree (hr : Current trace segments capacity r) (hs : Current trace segments capacity s)
    (time : s.time = r.time) :
    s.picture = r.picture ∧ s.painted = r.painted ∧ s.reached = r.reached := by
  refine ⟨?_, ?_, ?_⟩
  · rw [hs.picture_eq, hr.picture_eq, time]
  · rw [hs.painted_of_time, hr.painted_of_time, time]
  · rw [hs.reached_eq, hr.reached_eq, time]

theorem reached_eq_countP (current : Current trace segments capacity r)
    (played : PlayedBy trace.calls segments) :
    r.reached = trace.calls.countP fun c => c.time ≤ r.time := by
  rw [current.reached_eq, reachedAt_eq_countP (played.sorted trace.inOrder)]
  have starts := congrArg (List.countP fun start => start ≤ r.time) played.starts_eq
  rw [List.countP_map, List.countP_map] at starts
  exact starts

end Current

/-! ## The look of the cells -/

open StoringView

/-- Every cell of a view looks as the picture has it. -/
structure Repainted [StoringView ν] (trace : Trace) (segments : List Segment) (capacity : UInt32)
    (r : Timeline ν) : Prop extends Current trace segments capacity r where
  intact : Intact r.canvas
  cells_eq : r.handles.map cell = List.range' 0 capacity.toNat
  looks : ∀ (b : Nat) (p : Paint), r.painted[b]? = some p → (look r.canvas b).same p = true

namespace Repainted

variable [StoringView ν] {trace : Trace} {view : ν} {capacity : UInt32} {r : Timeline ν}

theorem numeric_paints
    (valid : ∀ s ∈ segments, ∀ note, s.mutation = .annotate note → note.checkAlpha = .ok ()) :
    ∀ x ∈ (Picture.ofSegments capacity segments t).paints, x.Numeric :=
  Picture.numeric_paints ((Picture.Numeric.blank capacity).play valid)

theorem size_paints (capacity : UInt32) (segments : List Segment) (t : Micros) :
    (Picture.ofSegments capacity segments t).paints.size = capacity.toNat := by
  rw [Picture.size_paints, Picture.size_cells_ofSegments]

theorem opened {handles : List (View.Handle ν)} (intact : Intact view)
    (all : View.cells view 0 (View.capacity view) = .ok handles)
    (valid : ∀ s ∈ segments, ∀ note, s.mutation = .annotate note → note.checkAlpha = .ok ()) :
    Repainted trace segments (View.capacity view) (opened trace view segments handles) where
  toCurrent := .opened view handles
  intact := View.intact_paintAll intact
  cells_eq := cells_ok view _ _ _ all
  looks := by
    show ∀ (b : Nat) (p : Paint),
      (Picture.ofSegments (View.capacity view) segments .zero).paints[b]? = some p →
      (look (View.paintAll view handles _) b).same p = true
    intro b p at_b
    have size := size_paints (View.capacity view) segments .zero
    have inside : b < (View.capacity view).toNat := size ▸ (Array.getElem?_eq_some_iff.mp at_b).1
    have cells : handles.map cell = List.range' 0
        (Picture.ofSegments (View.capacity view) segments .zero).paints.toList.length := by
      rw [Array.length_toList, size]
      exact cells_ok view _ _ _ all
    have painted := View.look_paintAll (i := b) intact (by omega) cells
      (by rwa [Array.getElem?_toList])
    rw [Nat.zero_add] at painted
    rw [painted]
    exact Paint.same_refl (numeric_paints valid p (Array.mem_of_getElem? at_b))

theorem exists_painted (repainted : Repainted trace segments capacity r) {b : Nat}
    (inside : b < capacity.toNat) : ∃ p, r.painted[b]? = some p := by
  have size : r.painted.size = capacity.toNat := by rw [repainted.painted_of_time, size_paints]
  exact ⟨_, Array.getElem?_eq_getElem (size ▸ inside)⟩

/-- A cell that is not painted looked the same before. -/
theorem resolve (repainted : Repainted trace segments capacity r)
    (valid : ∀ s ∈ segments, ∀ note, s.mutation = .annotate note → note.checkAlpha = .ok ())
    (t : Micros) (p : Binary64) :
    Repainted trace segments capacity { r.resolve t with progress := p } := by
  have current := repainted.toCurrent.resolve t p
  refine ⟨current, View.intact_paintChanged repainted.intact, repainted.cells_eq, ?_⟩
  · intro b new new_b
    have new_eq : (r.resolve t).painted = (Picture.ofSegments capacity segments t).paints :=
      current.painted_of_time
    change (r.resolve t).painted[b]? = some new at new_b
    have numeric : new.Numeric :=
      numeric_paints valid new (new_eq ▸ Array.mem_of_getElem? new_b)
    have new_size : (r.resolve t).painted.size = capacity.toNat := by rw [new_eq, size_paints]
    have inside : b < capacity.toNat := new_size ▸ (Array.getElem?_eq_some_iff.mp new_b).1
    obtain ⟨old, old_b⟩ := repainted.exists_painted inside
    have cells : r.handles.map cell = List.range' 0 (r.resolve t).painted.toList.length := by
      rw [Array.length_toList, new_size]
      exact repainted.cells_eq
    have painted := View.look_paintChanged (i := b) repainted.intact
      (by rw [repainted.capacity_eq]; omega) cells (by rwa [Array.getElem?_toList])
      (by rwa [Array.getElem?_toList])
    rw [Nat.zero_add] at painted
    show (look (View.paintChanged r.canvas r.handles (r.resolve t).painted.toList
      r.painted.toList) b).same new = true
    rw [painted]
    split
    · rename_i unchanged
      exact Paint.same_trans (repainted.looks b old old_b) (Paint.same_symm unchanged)
    · exact Paint.same_refl numeric

theorem moved (repainted : Repainted trace segments capacity r)
    (valid : ∀ s ∈ segments, ∀ note, s.mutation = .annotate note → note.checkAlpha = .ok ())
    {s : Timeline ν} (moved : r.Moved s) : Repainted trace segments capacity s :=
  moved.keeps repainted fun _ t p before => before.resolve valid t p

/-- The views of timelines of one trace at one time look the same. -/
theorem looks_agree {r s : Timeline ν} (hr : Repainted trace segments capacity r)
    (hs : Repainted trace segments capacity s) (time : s.time = r.time) :
    ∀ b < capacity.toNat, (look s.canvas b).same (look r.canvas b) = true := by
  intro b inside
  obtain ⟨-, painted, -⟩ := hr.toCurrent.agree hs.toCurrent time
  obtain ⟨p, at_b⟩ := hr.exists_painted inside
  exact Paint.same_trans (hs.looks b p (painted ▸ at_b)) (Paint.same_symm (hr.looks b p at_b))

end Repainted

/-- A timeline that opens is repainted, and its segments are those of the calls. -/
theorem repainted_of_start [StoringView ν] {trace : Trace} {view : ν} {r : Timeline ν}
    (ok : start trace view = .ok r) (intact : Intact view) :
    ∃ segments, trace.segments = .ok segments ∧ PlayedBy trace.calls segments ∧
      (∀ s ∈ segments, ∀ note, s.mutation = .annotate note → note.checkAlpha = .ok ()) ∧
      Repainted trace segments (View.capacity view) r := by
  obtain ⟨segments, handles, notes, found, -, all, rfl⟩ := start_ok_iff.mp ok
  have played := segments_playedBy found
  have valid := played.checkAlpha notes
  exact ⟨segments, found, played, valid, .opened intact all valid⟩

/-- Whatever moves lead to a time, a timeline shows what the calls that have started by then leave
of a blank picture, each as far as it has played; it counts these calls; and every cell of the view
looks as the picture has it, although moves paint only the cells that differ from those painted
before.  So any two histories that end at one time show the same. -/
theorem moved_agrees_with_time [StoringView ν] {trace : Trace} {view : ν} {r₀ : Timeline ν}
    (ok : start trace view = .ok r₀) (intact : Intact view) :
    ∃ segments, trace.segments = .ok segments ∧ PlayedBy trace.calls segments ∧
      ∀ r, r₀.Moved r →
        (r.picture = (segments.filter fun s => s.start ≤ r.time).foldl
          (fun p s => p.apply s.mutation (s.played r.time)) (.blank (View.capacity view))) ∧
        (r.reached = trace.calls.countP fun c => c.time ≤ r.time) ∧
        (∀ b < (View.capacity view).toNat, ∃ p, r.picture.paints[b]? = some p ∧ p.Numeric ∧
          (look r.canvas b).same p = true) ∧
        ∀ r', r₀.Moved r' → r'.time = r.time →
          r'.picture = r.picture ∧ r'.picture.overlay = r.picture.overlay ∧
          r'.reached = r.reached ∧
          ∀ b < (View.capacity view).toNat, (look r'.canvas b).same (look r.canvas b) = true := by
  obtain ⟨segments, found, played, valid, opened⟩ := repainted_of_start ok intact
  have sorted := played.sorted trace.inOrder
  refine ⟨segments, found, played, ?_⟩
  intro r moved
  have repainted := opened.moved valid moved
  refine ⟨?_, ?_, ?_, ?_⟩
  · rw [repainted.picture_eq]
    exact Picture.ofSegments_eq_foldl _ sorted
  · exact repainted.reached_eq_countP played
  · intro b inside
    obtain ⟨p, at_b⟩ := repainted.exists_painted inside
    have looks := repainted.looks b p at_b
    rw [repainted.painted_eq] at at_b
    refine ⟨p, at_b, ?_, looks⟩
    have member := Array.mem_of_getElem? at_b
    rw [repainted.picture_eq] at member
    exact Repainted.numeric_paints valid _ member
  · intro r' moved' time
    have repainted' := opened.moved valid moved'
    obtain ⟨picture, -, reached⟩ := repainted.toCurrent.agree repainted'.toCurrent time
    exact ⟨picture, congrArg Picture.overlay picture, reached,
      repainted.looks_agree repainted' time⟩

/-- A block is allocated, highlighted while it fades in, and released. -/
def highlightedBlock : Trace where
  calls :=
    [⟨.malloc 2 none none, none, some 1, 0, ⟨1⟩, ⟨6⟩⟩,
      ⟨.annotate ⟨.add .range, 0, some 2, none, none, none, some .half⟩, none, none, 0, ⟨3⟩, ⟨6⟩⟩,
      ⟨.free (some 1) none, none, none, 1, ⟨8⟩, ⟨4⟩⟩]
  inOrder := by
    unfold InOrder
    decide

/-- Two ways to the time at which the highlight appears. -/
theorem moved_agrees_with_time_of_highlightedBlock :
    ∃ r₀ : Timeline Canvas, start highlightedBlock (Canvas.blank 4) = .ok r₀ ∧
      r₀.next.next.next.prev.picture = (r₀.seek ⟨3⟩).picture ∧
      ∀ b < 4,
        (look r₀.next.next.next.prev.canvas b).same (look (r₀.seek ⟨3⟩).canvas b) = true := by
  obtain ⟨r₀, ok⟩ : ∃ r₀ : Timeline Canvas, start highlightedBlock (Canvas.blank 4) = .ok r₀ :=
    ⟨_, rfl⟩
  have time : r₀.next.next.next.prev.time = (r₀.seek ⟨3⟩).time := by
    cases ok
    rfl
  obtain ⟨segments, -, -, shows⟩ := moved_agrees_with_time ok (Canvas.intact_blank 4)
  obtain ⟨-, -, -, agrees⟩ := shows (r₀.seek ⟨3⟩) (.seek _ .refl)
  obtain ⟨picture, -, -, looks⟩ := agrees _ (.prev (.next (.next (.next .refl)))) time
  exact ⟨r₀, ok, picture, looks⟩

end Timeline

end Heapscope
