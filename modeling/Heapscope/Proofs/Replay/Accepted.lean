import Heapscope.Proofs.Replay.Faults
import Heapscope.Proofs.Replay.Marks

/-!
# What can be replayed

The traces that a timeline opens on are those that keep the rules, and of the others the first fault
is reported.  Each release in a timeline then covers the cells of the block that faded in at its
address last, and no span of a segment or of a mark reaches beyond the cells, at any time.

* `PlayedBy.lastFill` -- the cells of releases;
* `Picture.ofSegments_eq_stroked` -- a picture as strokes on a blank one;
* `Timeline.Uncut` -- nothing reaches beyond the cells;
* `start_accepts` -- what a timeline opens on, and what holds of it from then on.
-/

namespace Heapscope

/-! ## The cells of releases -/

/-- The size of the block that fades in at an address. -/
def Mutation.filledAt? (address : UInt32) : Mutation → Option UInt32
  | fill a size _ => if a = address then some size else none
  | clear .. | annotate _ | idle => none

/-- The size of the last block that fades in at an address. -/
def lastFill? (address : UInt32) (segments : List Segment) : Option UInt32 :=
  (segments.filterMap fun s => s.mutation.filledAt? address).getLast?

theorem Call.Plays.filledAt?_eq {done : List Call} {c : Call} {m : Mutation}
    (plays : c.Plays done m) (a : UInt32) : m.filledAt? a = c.returnedAt? a := by
  unfold Call.returnedAt?
  cases plays with
  | malloc op result =>
    simp only [op, result, Option.some.injEq]
    rfl
  | free op | sleep op | annotate op =>
    rw [op]
    rfl

namespace PlayedBy

variable {calls : List Call} {segments : List Segment}

/-- Blocks fade in where they were returned. -/
theorem fills_eq (played : PlayedBy calls segments) (a : UInt32) :
    (segments.map fun s => s.mutation.filledAt? a) = calls.map (Call.returnedAt? a) :=
  played.map_eq fun _ _ _ _ plays => plays.filledAt?_eq a

/-- A release covers the cells of the block that faded in at its address last. -/
theorem lastFill (played : PlayedBy calls segments) {front back : List Segment} {s : Segment}
    (split : segments = front ++ s :: back) {address size : UInt32}
    (clears : s.mutation = .clear address size) : lastFill? address front = some size := by
  have at_s : segments[front.length]? = some s := by
    rw [split, List.getElem?_append_right (Nat.le_refl _), Nat.sub_self]
    rfl
  obtain ⟨inside, -⟩ := List.getElem?_eq_some_iff.mp at_s
  obtain ⟨c, call⟩ : ∃ c, calls[front.length]? = some c :=
    ⟨_, List.getElem?_eq_getElem (played.length_eq ▸ inside)⟩
  obtain ⟨m, segment, plays⟩ := played.plays _ c call
  rw [at_s, Option.some.injEq] at segment
  subst segment
  have same : (front.map fun s => s.mutation.filledAt? address)
      = (calls.take front.length).map (Call.returnedAt? address) := by
    rw [List.map_take, ← played.fills_eq, ← List.map_take, split, List.take_left]
  have filled := congrArg (List.filterMap id) same
  rw [List.filterMap_map, List.filterMap_map] at filled
  unfold lastFill?
  cases clears
  cases plays with
  | free op allocated => exact (congrArg List.getLast? filled).trans (sizeAt_last allocated)

end PlayedBy

/-! ## Spans of marks -/

namespace Picture

variable {capacity : UInt32} {segments : List Segment} {t : Micros}

/-- A picture is made by a stroke for each segment that has started. -/
theorem ofSegments_eq_stroked (capacity : UInt32)
    (sorted : segments.Pairwise fun a b => a.start ≤ b.start) (t : Micros) :
    ofSegments capacity segments t = (blank capacity).stroked
      ((segments.filter fun s => s.start ≤ t).map fun s => ⟨s.mutation, s.played t⟩) := by
  rw [ofSegments_eq_foldl capacity sorted]
  unfold stroked
  rw [List.foldl_map]

/-- The marks in effect are those of notes that segments play. -/
theorem exists_of_mem_marks (sorted : segments.Pairwise fun a b => a.start ≤ b.start) (mark : Mark)
    {x : UInt32 × mark.Kept}
    (member : x ∈ ((ofSegments capacity segments t).overlay.marks mark).entries) :
    ∃ s ∈ segments, ∃ note f, s.mutation = .annotate note ∧
      x = (note.address, note.kept f mark) := by
  rw [ofSegments_eq_stroked capacity sorted, entries_stroked_blank, List.mem_map] at member
  obtain ⟨⟨note, f⟩, lasts, rfl⟩ := member
  obtain ⟨s, started, stroke⟩ :=
    List.mem_map.mp (exists_of_mem_notesOf ((lasting_sublist _).subset lasts))
  rw [Stroke.mk.injEq] at stroke
  exact ⟨s, (List.mem_filter.mp started).1, note, f, stroke.1, rfl⟩

end Picture

namespace Timeline

/-- Nothing is cut off where the picture of a timeline is built and painted: segments touch cells
that the pictures before them have, and so do marks. -/
structure Uncut (r : Timeline Canvas) : Prop where
  picture_eq : r.picture = Picture.ofSegments r.canvas.capacity r.segments r.time
  segments : ∀ front s back, r.segments = front ++ s :: back →
    ∀ cells, s.mutation.span = some cells → cells.1.toNat + cells.2.toNat
      ≤ (Picture.ofSegments r.canvas.capacity front r.time).cells.size
  tints : ∀ e ∈ r.picture.overlay.colors.entries,
    e.1.toNat + e.2.size.toNat ≤ r.picture.cells.size
  highlights : ∀ e ∈ r.picture.overlay.ranges.entries,
    e.1.toNat + e.2.size.toNat ≤ r.picture.cells.size

theorem Showing.uncut {trace : Trace} {segments : List Segment} {capacity : UInt32}
    {r : Timeline Canvas} (showing : Showing trace segments capacity r)
    (sorted : segments.Pairwise fun a b => a.start ≤ b.start)
    (fits : ∀ s ∈ segments, ∀ cells, s.mutation.span = some cells →
      cells.1.toNat + cells.2.toNat ≤ capacity.toNat) : r.Uncut := by
  have capacity_eq : r.canvas.capacity = capacity := showing.capacity_eq
  have size : r.picture.cells.size = capacity.toNat := by
    rw [showing.picture_eq, Picture.size_cells_ofSegments]
  have marks : ∀ mark, ∀ x ∈ (r.picture.overlay.marks mark).entries,
      ∃ (note : Note) (f : Binary64), x = (note.address, note.kept f mark) ∧
        note.address.toNat + note.extent.toNat ≤ r.picture.cells.size := by
    intro mark x member
    rw [showing.picture_eq] at member
    obtain ⟨s, segment, note, f, annotates, rfl⟩ :=
      Picture.exists_of_mem_marks sorted mark member
    have touches : s.mutation.span = some (note.address, note.extent) := by
      rw [annotates]
      rfl
    exact ⟨note, f, rfl, size ▸ fits s segment _ touches⟩
  refine ⟨?_, ?_, ?_, ?_⟩
  · rw [capacity_eq, showing.segments_eq]
    exact showing.picture_eq
  · intro front s back split cells touches
    rw [Picture.size_cells_ofSegments, capacity_eq]
    rw [showing.segments_eq] at split
    exact fits s (split ▸ List.mem_append_right front List.mem_cons_self) cells touches
  · intro e member
    obtain ⟨note, f, rfl, inside⟩ := marks .color e member
    exact inside
  · intro e member
    obtain ⟨note, f, rfl, inside⟩ := marks .range e member
    exact inside

/-- The segments of a timeline that opens touch cells of the canvas. -/
theorem fits_of_checkSpans {view : Canvas} {segments : List Segment}
    (spans : checkSpans view segments = .ok ()) {s : Segment} (member : s ∈ segments)
    {cells : UInt32 × UInt32} (touches : s.mutation.span = some cells) :
    cells.1.toNat + cells.2.toNat ≤ view.capacity.toNat := by
  have none := (reports_checkSpans view segments).ok_iff.mp ⟨(), spans⟩
  have fault := List.flatMap_eq_nil_iff.mp none s member
  rw [touches, Option.bind_some, Option.toList_eq_nil_iff] at fault
  exact Call.cellFault?_eq_none_iff.mp fault

end Timeline

/-- A timeline opens on a canvas for the traces that keep the rules, and reports the first fault of
the others.  When it opens, its segments touch cells of the canvas only, each release covers the
cells of the block that faded in at its address last, and nothing is cut off wherever the timeline
is moved. -/
theorem start_accepts (trace : Trace) (view : Canvas) :
    ((∃ r, Timeline.start trace view = .ok r) ↔ Replayable view.capacity trace.calls) ∧
    Reports (Timeline.start trace view) (replayFaults view.capacity trace.calls) ∧
    ∀ r, Timeline.start trace view = .ok r →
      (∀ s ∈ r.segments, ∀ cells, s.mutation.span = some cells →
        cells.1.toNat + cells.2.toNat ≤ view.capacity.toNat) ∧
      (∀ front s back, r.segments = front ++ s :: back → ∀ address size,
        s.mutation = .clear address size → lastFill? address front = some size) ∧
      ∀ r', r.Moved r' → r'.segments = r.segments ∧ r'.canvas.capacity = view.capacity ∧
        r'.Uncut := by
  have reports := Timeline.reports_start trace view
  refine ⟨?_, reports, ?_⟩
  · rw [reports.ok_iff, replayFaults_eq_nil_iff]
  · intro r ok
    obtain ⟨segments, handles, -, found, spans, -, rfl⟩ := Timeline.start_ok_iff.mp ok
    have played := segments_playedBy found
    have fits : ∀ s ∈ segments, ∀ cells, s.mutation.span = some cells →
        cells.1.toNat + cells.2.toNat ≤ view.capacity.toNat :=
      fun s member cells touches => Timeline.fits_of_checkSpans spans member touches
    refine ⟨fits, ?_, ?_⟩
    · intro front s back split address size clears
      exact played.lastFill split clears
    · intro r' moved
      have showing := (Timeline.Showing.opened view handles).moved moved
      exact ⟨showing.segments_eq, showing.capacity_eq,
        showing.uncut (played.sorted trace.inOrder) fits⟩

/-- A trace with a note and a release on a canvas with one cell to spare. -/
theorem start_accepts_of_highlightedBlock :
    ∃ r : Timeline Canvas, Timeline.start Timeline.highlightedBlock (Canvas.blank 4) = .ok r ∧
      Replayable 4 Timeline.highlightedBlock.calls ∧
      (r.seek ⟨8⟩).segments.length = 3 ∧ (r.seek ⟨8⟩).Uncut := by
  obtain ⟨accepts, -, holds⟩ := start_accepts Timeline.highlightedBlock (Canvas.blank 4)
  obtain ⟨r, ok, length⟩ : ∃ r : Timeline Canvas,
      Timeline.start Timeline.highlightedBlock (Canvas.blank 4) = .ok r ∧ r.segments.length = 3 :=
    ⟨_, rfl, rfl⟩
  obtain ⟨-, -, moves⟩ := holds r ok
  obtain ⟨segments, -, uncut⟩ := moves _ (.seek ⟨8⟩ .refl)
  exact ⟨r, ok, accepts.mp ⟨r, ok⟩, segments ▸ length, uncut⟩

end Heapscope
