import Heapscope.Proofs.Replay.Ending
import Heapscope.Proofs.Replay.Opening

/-!
# Moving a timeline

Wherever a timeline is moved, and in how many moves, its picture is that of its time.  So a timeline
of the trace of a run shows memory as it was after the calls that have started by then.

* `Timeline.Moved` -- the timelines that moves lead to;
* `Timeline.Showing` -- what every move keeps;
* `replay_shows_memory` -- what the timeline of a run shows.
-/

namespace Heapscope

namespace View

variable {ν : Type} [View ν] [LawfulView ν]

theorem capacity_paintAll (view : ν) (handles : List (Handle ν)) (paints : List Paint) :
    capacity (paintAll view handles paints) = capacity view := by
  induction handles generalizing view paints with
  | nil => rfl
  | cons h rest ih =>
    cases paints with
    | nil => rfl
    | cons p more => rw [paintAll, ih, LawfulView.capacity_paint]

theorem capacity_paintChanged (view : ν) (handles : List (Handle ν)) (news olds : List Paint) :
    capacity (paintChanged view handles news olds) = capacity view := by
  induction handles generalizing view news olds with
  | nil => rfl
  | cons h rest ih =>
    cases news with
    | nil => rfl
    | cons new more =>
      cases olds with
      | nil => rfl
      | cons old others =>
        rw [paintChanged, ih]
        split
        · rfl
        · exact LawfulView.capacity_paint view h new

end View

namespace Timeline

variable {ν : Type} [View ν]

/-- The timelines that moves lead to. -/
inductive Moved (r : Timeline ν) : Timeline ν → Prop
  | refl : Moved r r
  | setProgress {s s' : Timeline ν} (p : Binary64) (before : Moved r s)
      (ok : s.setProgress p = .ok s') : Moved r s'
  | seek {s : Timeline ν} (t : Micros) (before : Moved r s) : Moved r (s.seek t)
  | next {s : Timeline ν} (before : Moved r s) : Moved r s.next
  | prev {s : Timeline ν} (before : Moved r s) : Moved r s.prev

/-- A timeline of a trace with given segments shows the picture of its time. -/
structure Showing (trace : Trace) (segments : List Segment) (capacity : UInt32)
    (s : Timeline ν) : Prop where
  segments_eq : s.segments = segments
  total_eq : s.total = trace.totalDuration
  capacity_eq : View.capacity s.canvas = capacity
  picture_eq : s.picture = Picture.ofSegments capacity segments s.time

namespace Showing

variable [LawfulView ν] {trace : Trace} {segments : List Segment} {capacity : UInt32}
  {s s' : Timeline ν}

theorem opened (view : ν) (handles : List (View.Handle ν)) :
    Showing trace segments (View.capacity view) (opened trace view segments handles) where
  segments_eq := rfl
  total_eq := rfl
  capacity_eq := View.capacity_paintAll view handles _
  picture_eq := rfl

/-- The progress is not part of what is shown. -/
theorem resolve (showing : Showing trace segments capacity s) (t : Micros) (p : Binary64) :
    Showing trace segments capacity { s.resolve t with progress := p } where
  segments_eq := showing.segments_eq
  total_eq := showing.total_eq
  capacity_eq := (View.capacity_paintChanged _ _ _ _).trans showing.capacity_eq
  picture_eq := by
    show Picture.ofSegments (View.capacity s.canvas) s.segments t = _
    rw [showing.capacity_eq, showing.segments_eq]
    rfl

theorem seek (showing : Showing trace segments capacity s) (t : Micros) :
    Showing trace segments capacity (s.seek t) :=
  showing.resolve _ _

theorem setProgress (showing : Showing trace segments capacity s) {p : Binary64}
    (ok : s.setProgress p = .ok s') : Showing trace segments capacity s' := by
  unfold Timeline.setProgress at ok
  split at ok
  · cases ok
  · simp only at ok
    split at ok
    · cases ok
      exact showing
    · cases ok
      exact showing.resolve _ _

theorem next (showing : Showing trace segments capacity s) :
    Showing trace segments capacity s.next := by
  unfold Timeline.next
  split
  · exact showing.seek _
  · exact showing.resolve _ _

theorem prev (showing : Showing trace segments capacity s) :
    Showing trace segments capacity s.prev := by
  unfold Timeline.prev
  split
  · exact showing.seek _
  · exact showing.resolve _ _

/-- Every move keeps what is shown true to the time. -/
theorem moved (showing : Showing trace segments capacity s) (moved : s.Moved s') :
    Showing trace segments capacity s' := by
  induction moved with
  | refl => exact showing
  | setProgress p _ ok ih => exact ih.setProgress ok
  | seek t _ ih => exact ih.seek t
  | next _ ih => exact ih.next
  | prev _ ih => exact ih.prev

end Showing

end Timeline

/-! ## Runs -/

namespace Picture

/-- A picture shows memory at a time, as a trace tells it. -/
def Shows (p : Picture) (capacity : UInt32) (calls : List Call) (t : Micros) : Prop :=
  p.cells.size = capacity.toNat ∧
    ∀ b < capacity.toNat, p.cells[b]? = some (shownCell (startedBy calls t) t b)

/-- A picture shows the bytes of blocks in their full colors, and nothing else. -/
def Fills (p : Picture) (capacity : UInt32) (blocks : List Block) : Prop :=
  ∀ b < capacity.toNat,
    (∀ block ∈ blocks, block.Covers b → p.cells[b]? = some ⟨some block.color, .one⟩) ∧
    ((∀ block ∈ blocks, ¬block.Covers b) → p.cells[b]? = some {})

theorem shows_ofSegments {capacity : UInt32} {trace : Trace}
    (executed : Executed capacity trace.calls) (t : Micros) :
    (ofSegments capacity (stages trace.calls) t).Shows capacity trace.calls t :=
  ⟨size_cells_ofSegments _ _ _, fun _ => cells_of_segments executed t⟩

/-- When all calls have ended a picture that shows memory fills the blocks that are held. -/
theorem Shows.fills {capacity : UInt32} {trace : Trace} {p : Picture}
    (executed : Executed capacity trace.calls)
    (shows : p.Shows capacity trace.calls trace.totalDuration) :
    p.Fills capacity ((heldBlocks trace.calls).map Prod.snd) ∧
      p.filled
        = (((heldBlocks trace.calls).map Prod.snd).map fun block => block.size.toNat).sum := by
  obtain ⟨size, cells⟩ := shows
  simp only [startedBy_totalDuration, shownCell_of_ended fun _ => finish_le_totalDuration] at cells
  constructor
  · intro b inside
    rw [cells b inside]
    constructor
    · intro block member covers
      obtain ⟨q, hq, rfl⟩ := List.mem_map.mp member
      rw [(heldOver_eq_some_iff executed).mpr ⟨hq, covers⟩]
      rfl
    · intro outside
      rw [heldOver_eq_none_iff.mpr fun q hq => outside q.2 (List.mem_map_of_mem hq)]
      rfl
  · have inside : ∀ block ∈ (heldBlocks trace.calls).map Prod.snd, block.Inside capacity := by
      intro block member
      obtain ⟨q, hq, rfl⟩ := List.mem_map.mp member
      exact executed.heldBlocks_inside hq
    have disjoint : ((heldBlocks trace.calls).map Prod.snd).Pairwise Block.Disjoint := by
      rw [List.pairwise_map]
      exact executed.heldBlocks_disjoint
    -- a cell has a fill exactly when its byte is covered, and the blocks share no byte
    rw [filled_eq_countP size cells, ← countP_covered inside disjoint]
    refine List.countP_congr fun b _ => ?_
    rw [List.any_map]
    cases found : heldOver trace.calls b with
    | none => simpa using heldOver_eq_none_iff.mp found
    | some q =>
      obtain ⟨member, covers⟩ := (heldOver_eq_some_iff executed).mp found
      simpa using ⟨q.1, q.2, member, covers⟩

end Picture

/-- The trace of a run that succeeds replays in a view of the size of the address space, and shows
memory throughout: at any time the blocks that the calls started by then hold fade in with their
allocations, and bytes that they have released fade out, each evenly over the length of its call.  At
the end the blocks in use are filled and nothing else is. -/
theorem replay_shows_memory {σ ν : Type} [View ν] [LawfulView ν] {h : Host σ} {palette : Palette}
    {host : σ} {calls : List Call} {r : Run} (ok : (run h palette host calls).1 = .ok r) (view : ν)
    (same : View.capacity view = h.capacity) :
    (∃ timeline, Timeline.start r.trace view = .ok timeline ∧
      ∀ moved, timeline.Moved moved →
        moved.picture.Shows h.capacity r.trace.calls moved.time ∧
        (∀ t, (moved.resolve t).picture.Shows h.capacity r.trace.calls t) ∧
        (∀ t, t ≤ r.trace.totalDuration → (moved.seek t).time = t) ∧
        (moved.time = r.trace.totalDuration →
          moved.picture.Fills h.capacity (r.live.entries.map Prod.snd) ∧
          moved.picture.filled = r.occupied)) ∧
    ∀ c ∈ r.trace.calls, c.PlaysEvenly := by
  obtain ⟨heap, reaches, -, -, occupied, live⟩ := run_ok ok
  have sound := Heap.Sound.of_reaches reaches
  have executed := sound.executed
  obtain ⟨handles, opens⟩ := Timeline.start_of_executed executed
    (Nat.le_of_eq (by rw [same])) (LawfulView.beyond_of_cells view)
  refine ⟨⟨_, opens, ?_⟩, fun c _ => c.playsEvenly⟩
  intro moved moves
  have showing : Timeline.Showing r.trace (stages r.trace.calls) (View.capacity view) moved :=
    (Timeline.Showing.opened view handles).moved moves
  rw [same] at showing
  have shows : moved.picture.Shows h.capacity r.trace.calls moved.time := by
    rw [showing.picture_eq]
    exact Picture.shows_ofSegments executed moved.time
  refine ⟨shows, ?_, ?_, ?_⟩
  · intro t
    have resolved := showing.resolve t moved.progress
    have picture : (moved.resolve t).picture = _ := resolved.picture_eq
    rw [picture]
    exact Picture.shows_ofSegments executed t
  · intro t le
    show (if t ≤ moved.total then t else moved.total) = t
    rw [showing.total_eq, if_pos le]
  · intro ended
    rw [ended] at shows
    obtain ⟨fills, filled⟩ := shows.fills executed
    rw [sound.heldBlocks_eq] at fills filled
    rw [live, occupied, sound.occupied_eq]
    refine ⟨fills, ?_⟩
    rw [filled, List.map_map]
    rfl

/-- A block that is released while it still fades in, and a pinned block beside it. -/
def overlappingFades : List Call :=
  [⟨.malloc 2 none none, none, none, 0, ⟨0⟩, ⟨8⟩⟩,
    ⟨.malloc 3 (some 4) none, some (.named "pinned"), none, 1, ⟨2⟩, ⟨4⟩⟩,
    ⟨.free (some 0) none, none, none, 0, ⟨3⟩, ⟨2⟩⟩]

/-- A run of the first-fit allocator, replayed on a canvas of the same size: once to a time at which
both the release and the second allocation are half played, and once to the end. -/
theorem replay_shows_memory_of_firstFit_run :
    ∃ r timeline, (run (FirstFit.host 8) .default (.empty 8) overlappingFades).1 = .ok r ∧
      Timeline.start r.trace (Canvas.blank 8) = .ok timeline ∧
      (timeline.seek ⟨4⟩).picture.cells[1]? = some ⟨some (Palette.default.color 0), .half⟩ ∧
      (timeline.seek ⟨4⟩).picture.cells[4]? = some ⟨some (Palette.default.color 1), .half⟩ ∧
      (timeline.seek ⟨4⟩).picture.cells[7]? = some ({} : Cell) ∧
      (timeline.seek ⟨8⟩).picture.Fills 8 (r.live.entries.map Prod.snd) ∧
      (timeline.seek ⟨8⟩).picture.filled = r.occupied := by
  obtain ⟨r, ok, total, fading⟩ :
      ∃ r, (run (FirstFit.host 8) .default (.empty 8) overlappingFades).1 = .ok r ∧
        r.trace.totalDuration = ⟨8⟩ ∧ [1, 4, 7].map (shownCell (startedBy r.trace.calls ⟨4⟩) ⟨4⟩)
          = [⟨some (Palette.default.color 0), .half⟩, ⟨some (Palette.default.color 1), .half⟩, {}] :=
    ⟨_, rfl, rfl, rfl⟩
  obtain ⟨⟨timeline, opens, shows⟩, -⟩ := replay_shows_memory ok (Canvas.blank 8) rfl
  obtain ⟨-, -, seeks, -⟩ := shows timeline .refl
  rw [total] at seeks
  obtain ⟨⟨-, cells⟩, -⟩ := shows _ (.seek ⟨4⟩ .refl)
  rw [seeks ⟨4⟩ (by decide)] at cells
  obtain ⟨-, -, -, ending⟩ := shows _ (.seek ⟨8⟩ .refl)
  obtain ⟨fills, filled⟩ := ending (by rw [seeks ⟨8⟩ (by decide), total])
  simp only [List.map_cons, List.map_nil, List.cons.injEq, and_true] at fading
  obtain ⟨releasing, allocating, blank⟩ := fading
  refine ⟨r, timeline, ok, opens, ?_, ?_, ?_, fills, filled⟩
  · rw [cells 1 (by decide), releasing]
  · rw [cells 4 (by decide), allocating]
  · rw [cells 7 (by decide), blank]

end Heapscope
