import Heapscope.Host.FirstFit
import Heapscope.Proofs.Except
import Heapscope.Proofs.Replay.Stages
import Heapscope.Proofs.Run.Soundness
import Heapscope.Replay.Timeline

/-!
# Opening a timeline

A timeline opens on a view when the notes are valid, the calls have segments and the view has the
cells; nothing else is refused.

* `Timeline.start_ok_iff` -- when a timeline opens, and with which fields;
* `start_of_run` -- the trace of every run that succeeds can be replayed.
-/

namespace Heapscope

/-- A view that fails to find cells only beyond its capacity, which painting leaves as it is. -/
class LawfulView (ν : Type) [View ν] : Prop where
  beyond_of_cells : ∀ (view : ν) (address size : UInt32) (e : ViewFault),
    View.cells view address size = .error e →
      (View.capacity view).toNat < address.toNat + size.toNat
  capacity_paint : ∀ (view : ν) (handle : View.Handle ν) (p : Paint),
    View.capacity (View.paint view handle p) = View.capacity view

namespace Canvas

/-- The sum of two 32-bit numbers does not wrap in 64 bits. -/
theorem checkCells_ok_iff {c : Canvas} {address size : UInt32} :
    c.checkCells address size = .ok () ↔ address.toNat + size.toNat ≤ c.capacity.toNat := by
  have ha := address.toNat_lt
  have hs := size.toNat_lt
  have sum : (address.toUInt64 + size.toUInt64).toNat = address.toNat + size.toNat := by
    rw [UInt64.toNat_add, UInt32.toNat_toUInt64, UInt32.toNat_toUInt64, Nat.mod_eq_of_lt (by omega)]
  unfold checkCells
  simp only [UInt64.lt_iff_toNat_lt, sum, UInt32.toNat_toUInt64]
  split
  · simp only [reduceCtorEq, false_iff]
    omega
  · simp only [true_iff]
    omega

theorem checkCells_error {c : Canvas} {address size : UInt32}
    (beyond : c.capacity.toNat < address.toNat + size.toNat) :
    c.checkCells address size = .error ⟨address, size, c.capacity⟩ := by
  have refused : c.checkCells address size ≠ .ok () :=
    fun ok => Nat.not_le.mpr beyond (checkCells_ok_iff.mp ok)
  unfold checkCells at refused ⊢
  split
  · rfl
  · rename_i fits
    rw [if_neg fits] at refused
    exact absurd rfl refused

instance : LawfulView Canvas where
  beyond_of_cells := by
    intro c address size e failed
    by_contra fits
    have ok := checkCells_ok_iff.mpr (Nat.le_of_not_lt fits)
    simp only [View.cells, bind, Except.bind, ok, pure, Except.pure] at failed
    cases failed
  capacity_paint := fun _ _ _ => rfl

end Canvas

namespace Timeline

variable {ν : Type} [View ν]

theorem checkNotes_ok_iff {capacity : UInt32} {calls : List Call} :
    checkNotes capacity calls = .ok ()
      ↔ ∀ c ∈ calls, ∀ note, c.op = .annotate note → note.validate capacity = .ok () := by
  unfold checkNotes
  rw [forM_ok_iff]
  refine forall₂_congr fun c _ => ?_
  cases c.op with
  | malloc | free | sleep => simp
  | annotate note => cases valid : note.validate capacity <;> simp [valid, Except.mapError]

theorem checkSpans_ok_iff {view : ν} {segments : List Segment} :
    checkSpans view segments = .ok ()
      ↔ ∀ s ∈ segments, ∀ span, s.mutation.span = some span →
          ∃ handles, View.cells view span.1 span.2 = .ok handles := by
  unfold checkSpans cells
  rw [forM_ok_iff]
  refine forall₂_congr fun s _ => ?_
  cases s.mutation.span with
  | none => simp
  | some span =>
    cases found : View.cells view span.1 span.2 <;> simp [found, Except.mapError, Except.map]

/-- A trace on a view at time zero, with the segments and the handles that were found. -/
def opened (trace : Trace) (view : ν) (segments : List Segment)
    (handles : List (View.Handle ν)) : Timeline ν :=
  let picture := Picture.ofSegments (View.capacity view) segments .zero
  { trace, segments, handles, picture
    painted := picture.paints
    steps := dropRepeats (segments.map Segment.start)
    canvas := View.paintAll view handles picture.paints.toList
    time := .zero
    total := trace.totalDuration
    progress := .zero
    reached := reachedAt segments .zero }

/-- A timeline opens when the notes are valid, the calls have segments, and the view has the cells
of each segment and all of its own. -/
theorem start_ok_iff {trace : Trace} {view : ν} {r : Timeline ν} :
    start trace view = .ok r ↔ ∃ segments handles,
      checkNotes (View.capacity view) trace.calls = .ok () ∧
      trace.segments = .ok segments ∧ checkSpans view segments = .ok () ∧
      View.cells view 0 (View.capacity view) = .ok handles ∧
      r = opened trace view segments handles := by
  unfold start cells
  cases notes : checkNotes (View.capacity view) trace.calls with
  | error e => simp [notes, bind, Except.bind]
  | ok =>
    cases trace.segments with
    | error e => simp [notes, bind, Except.bind]
    | ok segments =>
      cases spans : checkSpans view segments with
      | error e => simp [notes, spans, bind, Except.bind]
      | ok =>
        cases all : View.cells view 0 (View.capacity view) with
        | error e => simp [notes, spans, all, bind, Except.bind, Except.mapError]
        | ok handles =>
          simp [notes, spans, all, bind, Except.bind, Except.mapError, pure, Except.pure,
            opened, eq_comm]

/-- A trace with good books opens on every view that is large enough. -/
theorem start_of_executed {capacity : UInt32} {trace : Trace}
    (executed : Executed capacity trace.calls) {view : ν}
    (large : capacity.toNat ≤ (View.capacity view).toNat)
    (fails : ∀ address size e, View.cells view address size = .error e →
      (View.capacity view).toNat < address.toNat + size.toNat) :
    ∃ handles, start trace view = .ok (opened trace view (stages trace.calls) handles) := by
  have found : ∀ address size : UInt32,
      address.toNat + size.toNat ≤ (View.capacity view).toNat →
      ∃ handles, View.cells view address size = .ok handles := by
    intro address size fits
    cases eq : View.cells view address size with
    | ok handles => exact ⟨handles, rfl⟩
    | error e =>
      have beyond := fails address size e eq
      omega
  have notes : checkNotes (View.capacity view) trace.calls = .ok () := by
    rw [checkNotes_ok_iff]
    intro c member note op
    exact Note.validate_mono large (executed.note_valid c member note op)
  have spans : checkSpans view (stages trace.calls) = .ok () := by
    rw [checkSpans_ok_iff]
    intro s member span touches
    exact found _ _ (Nat.le_trans (span_of_mem_stages executed member touches) large)
  obtain ⟨handles, all⟩ := found 0 (View.capacity view) (by simp)
  exact ⟨handles, start_ok_iff.mpr
    ⟨_, handles, notes, segments_of_executed executed, spans, all, rfl⟩⟩

end Timeline

/-- The trace of a run that succeeds has good books. -/
theorem executed_of_run {σ : Type} {h : Host σ} {palette : Palette} {host : σ}
    {calls : List Call} {r : Run} (ok : (run h palette host calls).1 = .ok r) :
    Executed h.capacity r.trace.calls := by
  obtain ⟨heap, reaches, -⟩ := run_ok ok
  exact (Heap.Sound.of_reaches reaches).executed

/-- The trace of every run that succeeds can be replayed, on every view that has at least the bytes
of the address space and finds every cell that it has. -/
theorem start_of_run {σ ν : Type} [View ν] {h : Host σ} {palette : Palette} {host : σ}
    {calls : List Call} {r : Run} (ok : (run h palette host calls).1 = .ok r) (view : ν)
    (large : h.capacity ≤ View.capacity view)
    (fails : ∀ address size e, View.cells view address size = .error e →
      (View.capacity view).toNat < address.toNat + size.toNat) :
    ∃ timeline, Timeline.start r.trace view = .ok timeline := by
  obtain ⟨handles, opens⟩ :=
    Timeline.start_of_executed (executed_of_run ok) (UInt32.le_iff_toNat_le.mp large) fails
  exact ⟨_, opens⟩

/-- Calls of two threads: a block that the allocator places and that is released by its address,
and a pinned block with a name. -/
def twoThreads : List Call :=
  [⟨.malloc 2 none none, none, none, 0, ⟨1⟩, ⟨4⟩⟩,
    ⟨.malloc 3 (some 4) none, some (.named "pinned"), none, 1, ⟨2⟩, ⟨4⟩⟩,
    ⟨.free (some 0) none, none, none, 0, ⟨3⟩, ⟨1⟩⟩]

/-- A run of the first-fit allocator, replayed on a canvas that is larger than its memory. -/
theorem start_of_firstFit_run :
    ∃ r timeline, (run (FirstFit.host 8) .default (.empty 8) twoThreads).1 = .ok r ∧
      Timeline.start r.trace (Canvas.blank 9) = .ok timeline := by
  obtain ⟨r, ok⟩ : ∃ r, (run (FirstFit.host 8) .default (.empty 8) twoThreads).1 = .ok r :=
    ⟨_, rfl⟩
  obtain ⟨timeline, opens⟩ := start_of_run ok (Canvas.blank 9) (by decide)
    (LawfulView.beyond_of_cells _)
  exact ⟨r, timeline, ok, opens⟩

end Heapscope
