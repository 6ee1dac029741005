import Heapscope.Host.FirstFit
import Heapscope.Proofs.Run.Woven

/-!
# Times do not matter to a run

No decision of a run looks at the time or the duration of a call.  So when calls are given other
times, and are still sorted, the run does the same to memory and to the allocator: it succeeds with
a trace that differs in times only, or is refused at the same call for the same reason.

* `Call.Alike`, `LogRecord.Alike` -- equal except for times;
* `Heap.apply_retimed`, `Heap.step_retimed` -- one call at another time;
* `Heap.steps_alike` -- many calls, each at another time;
* `run_ignores_times` -- whole runs.
-/

namespace Heapscope

/-! ## Other times -/

/-- A call at another time that lasts another while. -/
def Call.retimed (time duration : Micros) (c : Call) : Call := { c with time, duration }

/-- Calls are equal except for time and duration. -/
def Call.Alike (c c' : Call) : Prop := c' = c.retimed c'.time c'.duration

/-- A message of a call at another time. -/
def LogRecord.retimed (time : Micros) (l : LogRecord) : LogRecord := { l with time }

/-- Messages are equal except for the time. -/
def LogRecord.Alike (l l' : LogRecord) : Prop := l' = l.retimed l'.time

/-- Pieces are equal except for the time and the duration of their calls. -/
structure Piece.Alike (p p' : Piece) : Prop where
  call : p.call.Alike p'.call
  notes : p'.notes = p.notes

def Origin.retimed (time duration : Micros) (o : Origin) : Origin := { o with time, duration }

/-- An outcome in which all calls and messages have another time. -/
def Outcome.retimed {σ : Type} (time duration : Micros) (o : Outcome σ) : Outcome σ :=
  ⟨o.heap, o.logs.map (LogRecord.retimed time),
    o.result.map (List.map (Call.retimed time duration))⟩

theorem Call.alike_retimed (time duration : Micros) (c : Call) :
    c.Alike (c.retimed time duration) :=
  rfl

theorem Call.Alike.refl (c : Call) : c.Alike c := rfl

theorem LogRecord.Alike.refl (l : LogRecord) : l.Alike l := rfl

theorem LogRecord.alike_map_retimed (time : Micros) (logs : List LogRecord) :
    List.Forall₂ LogRecord.Alike logs (logs.map (LogRecord.retimed time)) := by
  rw [List.forall₂_map_right_iff, List.forall₂_same]
  exact fun l _ => rfl

/-- The annotations of a piece follow the time of its call. -/
theorem Piece.calls_alike {p p' : Piece} (alike : p.Alike p') :
    List.Forall₂ Call.Alike p.calls p'.calls := by
  obtain ⟨call, notes⟩ := alike
  have thread : p'.call.thread = p.call.thread := by rw [call, Call.retimed]
  unfold Piece.calls
  rw [notes]
  refine .cons call ?_
  rw [List.forall₂_map_left_iff, List.forall₂_map_right_iff, List.forall₂_same]
  intro note _
  unfold Call.Alike Call.retimed
  rw [thread]

theorem Piece.calls_retimed (time duration : Micros) (p : Piece) :
    p.calls.map (Call.retimed time duration)
      = (Piece.mk (p.call.retimed time duration) p.notes).calls := by
  unfold Piece.calls
  rw [List.map_cons, List.map_map]
  rfl

theorem flatMap_calls_alike {pieces pieces' : List Piece}
    (alike : List.Forall₂ Piece.Alike pieces pieces') :
    List.Forall₂ Call.Alike (pieces.flatMap Piece.calls) (pieces'.flatMap Piece.calls) := by
  induction alike with
  | nil => exact .nil
  | cons first _ ih =>
    rw [List.flatMap_cons, List.flatMap_cons]
    exact List.rel_append (Piece.calls_alike first) ih

theorem countP_alike {calls calls' : List Call} (alike : List.Forall₂ Call.Alike calls calls')
    (name : String) :
    calls'.countP (fun c => c.op.name == name) = calls.countP (fun c => c.op.name == name) := by
  induction alike with
  | nil => rfl
  | @cons c c' _ _ first _ ih =>
    have op : c'.op = c.op := by rw [first, Call.retimed]
    rw [List.countP_cons, List.countP_cons, ih, op]

/-! ## One call -/

namespace Heap

variable {σ : Type} {h : Host σ} {palette : Palette}

/-- A call does at another time what it does at its own. -/
theorem apply_retimed (heap : Heap σ) (call : Call) (time duration : Micros) :
    heap.apply h palette (call.retimed time duration)
      = ((heap.apply h palette call).1.map (Call.retimed time duration),
        (heap.apply h palette call).2) := by
  obtain ⟨op, id, result, thread, _, _⟩ := call
  unfold apply Call.retimed
  cases op with
  | malloc size pinned color =>
    simp only
    rcases heap.malloc h palette size pinned color id with ⟨e | ⟨key, block⟩, heap'⟩ <;> rfl
  | free address color =>
    simp only
    cases id.or (address.map .address) with
    | none => rfl
    | some key =>
      simp only
      rcases heap.free h key with ⟨e | block, heap'⟩ <;> rfl
  | sleep => rfl
  | annotate note =>
    simp only
    cases note.validate h.capacity <;> rfl

theorem noteCalls_retimed (capacity : UInt32) (o : Origin) (notes : List Note)
    (time duration : Micros) :
    noteCalls capacity (o.retimed time duration) notes
      = (noteCalls capacity o notes).map (List.map (Call.retimed time duration)) := by
  unfold noteCalls
  induction notes with
  | nil => rfl
  | cons note rest ih =>
    rw [List.mapM_cons, List.mapM_cons, ih]
    generalize rest.mapM (fun note => (note.validate capacity).map fun _ => o.noteCall note) = more
    cases note.validate capacity with
    | error e => rfl
    | ok => cases more <;> rfl

theorem collect_retimed (heap : Heap σ) (o : Origin) (applied : Except Refusal (List Call))
    (time duration : Micros) :
    heap.collect h (o.retimed time duration)
        (applied.map (List.map (Call.retimed time duration)))
      = (heap.collect h o applied).retimed time duration := by
  have records : ∀ entries : List LogEntry, entries.map (o.retimed time duration).record
      = (entries.map o.record).map (LogRecord.retimed time) := by
    intro entries
    rw [List.map_map]
    rfl
  unfold collect Outcome.retimed
  cases applied with
  | error e =>
    simp only [records, Except.map]
    rfl
  | ok calls =>
    simp only [records, Except.map, noteCalls_retimed]
    cases noteCalls h.capacity o (h.drainNotes (h.drainLogs heap.host).2).1 with
    | error i => rfl
    | ok more => simp only [List.map_append]

/-- A step at another time is the same step, and all that it shows has the other time. -/
theorem step_retimed (heap : Heap σ) (index : Nat) (call : Call) (time duration : Micros) :
    heap.step h palette index (call.retimed time duration)
      = (heap.step h palette index call).retimed time duration := by
  unfold step
  simp only [apply_retimed]
  rw [← collect_retimed, map_map, map_map]
  rfl

/-! ## Many calls -/

/-- Traces are woven alike on two clocks: every call keeps its own time, and the annotations that it
led to follow it on both. -/
structure WovenAlike (calls calls' : List Call) (pieces pieces' : List Piece) : Prop where
  framed : List.Forall₂ (fun call p => call.Framed p.call) calls pieces
  framed' : List.Forall₂ (fun call p => call.Framed p.call) calls' pieces'
  alike : List.Forall₂ Piece.Alike pieces pieces'

/-- Calls at other times are made alike, or refused alike at the same call. -/
theorem steps_alike (nonempty : palette.colors ≠ []) {calls calls' : List Call}
    (alike : List.Forall₂ Call.Alike calls calls') (heap : Heap σ) (index : Nat) :
    (heap.steps h palette index calls').heap = (heap.steps h palette index calls).heap ∧
    List.Forall₂ LogRecord.Alike (heap.steps h palette index calls).logs
      (heap.steps h palette index calls').logs ∧
    ((∃ e, (heap.steps h palette index calls).result = .error e ∧
        (heap.steps h palette index calls').result = .error e) ∨
      ∃ pieces pieces', (heap.steps h palette index calls).result
          = .ok (pieces.flatMap Piece.calls) ∧
        (heap.steps h palette index calls').result = .ok (pieces'.flatMap Piece.calls) ∧
        WovenAlike calls calls' pieces pieces') := by
  induction alike generalizing heap index with
  | nil => exact ⟨rfl, .nil, .inr ⟨[], [], rfl, rfl, .nil, .nil, .nil⟩⟩
  | @cons call call' rest rest' first _ ih =>
    have step' : heap.step h palette index call'
        = (heap.step h palette index call).retimed call'.time call'.duration := by
      rw [← step_retimed, ← first]
    have logs : List.Forall₂ LogRecord.Alike (heap.step h palette index call).logs
        (heap.step h palette index call').logs := by
      rw [step']
      exact LogRecord.alike_map_retimed _ _
    rw [steps, steps]
    cases made : (heap.step h palette index call).result with
    | error e =>
      have made' : (heap.step h palette index call').result = .error e := by
        rw [step', Outcome.retimed, made]
        rfl
      simp only [made']
      exact ⟨by rw [step']; rfl, logs, .inl ⟨e, rfl, rfl⟩⟩
    | ok shown =>
      obtain ⟨done, enriched, rfl, -⟩ := step_piece nonempty made
      have framed := enriched.framed
      have made' : (heap.step h palette index call').result
          = .ok (Piece.mk (done.retimed call'.time call'.duration)
              (drained h palette heap call)).calls := by
        rw [step', Outcome.retimed, made]
        exact congrArg Except.ok (Piece.calls_retimed _ _ _)
      have heap' : (heap.step h palette index call').heap
          = (heap.step h palette index call).heap := by
        rw [step']
        rfl
      have framed' : call'.Framed (done.retimed call'.time call'.duration) := by
        refine ⟨?_, rfl, rfl, ?_⟩
        · rw [first]
          exact framed.thread_eq
        · rw [first]
          exact framed.name_eq
      obtain ⟨heaps, more, outcome⟩ :=
        ih (heap.step h palette index call).heap (index + 1)
      simp only [made', heap']
      refine ⟨heaps, List.rel_append logs more, ?_⟩
      rcases outcome with ⟨e, refused, refused'⟩ | ⟨pieces, pieces', ok, ok', woven⟩
      · rw [refused, refused']
        exact .inl ⟨e, rfl, rfl⟩
      · rw [ok, ok']
        exact .inr ⟨_ :: pieces, _ :: pieces', rfl, rfl, .cons framed woven.framed,
          .cons framed' woven.framed', .cons ⟨done.alike_retimed _ _, rfl⟩ woven.alike⟩

end Heap

/-! ## Whole runs -/

section Runs

variable {σ : Type} {palette : Palette} {calls calls' : List Call}

theorem runCalls_alike (h : Host σ) (host : σ) (nonempty : palette.colors ≠ [])
    (sorted : InOrder calls) (sorted' : InOrder calls')
    (alike : List.Forall₂ Call.Alike calls calls') :
    (runCalls h palette host calls').heap = (runCalls h palette host calls).heap ∧
    List.Forall₂ LogRecord.Alike (runCalls h palette host calls).logs
      (runCalls h palette host calls').logs ∧
    ((∃ e, (runCalls h palette host calls).result = .error e ∧
        (runCalls h palette host calls').result = .error e) ∨
      ∃ pieces pieces', (runCalls h palette host calls).result
          = .ok ((Heap.queued h (Heap.start h host)).map Origin.setup.noteCall
            ++ pieces.flatMap Piece.calls) ∧
        (runCalls h palette host calls').result
          = .ok ((Heap.queued h (Heap.start h host)).map Origin.setup.noteCall
            ++ pieces'.flatMap Piece.calls) ∧
        Heap.WovenAlike calls calls' pieces pieces') := by
  have setup_logs : List.Forall₂ LogRecord.Alike (Heap.setup h host).logs
      (Heap.setup h host).logs := List.forall₂_same.mpr fun l _ => .refl l
  cases noted : (Heap.setup h host).result with
  | error e =>
    rw [runCalls_eq, runCalls_eq, noted]
    exact ⟨rfl, setup_logs, .inl ⟨e, rfl, rfl⟩⟩
  | ok notes =>
    rw [runCalls_of_inOrder noted sorted, runCalls_of_inOrder noted sorted']
    obtain ⟨heaps, logs, outcome⟩ :=
      Heap.steps_alike (h := h) nonempty alike (Heap.setup h host).heap 0
    refine ⟨heaps, List.rel_append setup_logs logs, ?_⟩
    simp only
    rcases outcome with ⟨e, refused, refused'⟩ | ⟨pieces, pieces', ok, ok', woven⟩
    · rw [refused, refused']
      exact .inl ⟨e, rfl, rfl⟩
    · obtain ⟨rfl, -⟩ := setup_notes noted
      rw [ok, ok']
      exact .inr ⟨pieces, pieces', rfl, rfl, woven⟩

/-- An outcome with sorted calls is a run. -/
theorem finish_of_ok {o : Outcome σ} {made : List Call} (inOrder : InOrder made)
    (ok : o.result = .ok made) : o.finish = .ok ⟨⟨made, inOrder⟩, o.logs, o.heap.bytes.peak,
      o.heap.bytes.occupied, o.heap.live⟩ := by
  unfold Outcome.finish
  simp only [ok, Trace.ofCalls?_of_inOrder inOrder]

theorem finish_of_error {o : Outcome σ} {index : Option Nat} {e : Refusal}
    (error : o.result = .error (index, e)) : o.finish = .error ⟨e, index, o.logs⟩ := by
  unfold Outcome.finish
  rw [error]

/-- The times of calls have no part in what a run does.  Two lists of calls that are sorted and
equal except for times leave the allocator in the same state, and either both runs succeed or both
fail.  Runs that succeed have traces, woven alike, that are equal except for times: calls keep their
own, and annotations have those of the call that led to them; their messages are equal except for
the time, and their blocks in use, peaks, numbers of bytes in use and counters are equal.  Runs that
fail do so for the same reason at the same call, with messages equal except for the time. -/
theorem run_ignores_times (h : Host σ) (palette : Palette) (host : σ) (sorted : InOrder calls)
    (sorted' : InOrder calls') (alike : List.Forall₂ Call.Alike calls calls') :
    (run h palette host calls').2 = (run h palette host calls).2 ∧
    ((∃ r r', (run h palette host calls).1 = .ok r ∧ (run h palette host calls').1 = .ok r' ∧
        List.Forall₂ Call.Alike r.trace.calls r'.trace.calls ∧
        (∃ pieces pieces',
          r.trace.calls = (Heap.queued h (Heap.start h host)).map Origin.setup.noteCall
            ++ pieces.flatMap Piece.calls ∧
          r'.trace.calls = (Heap.queued h (Heap.start h host)).map Origin.setup.noteCall
            ++ pieces'.flatMap Piece.calls ∧
          Heap.WovenAlike calls calls' pieces pieces') ∧
        r'.live = r.live ∧ r'.peak = r.peak ∧ r'.occupied = r.occupied ∧ r'.counts = r.counts ∧
        List.Forall₂ LogRecord.Alike r.logs r'.logs) ∨
      ∃ e e', (run h palette host calls).1 = .error e ∧ (run h palette host calls').1 = .error e' ∧
        e'.refusal = e.refusal ∧ e'.callIndex = e.callIndex ∧
        List.Forall₂ LogRecord.Alike e.logs e'.logs) := by
  by_cases empty : palette.colors = []
  · rw [run_of_no_colors empty, run_of_no_colors empty]
    exact ⟨rfl, .inr ⟨_, _, rfl, rfl, rfl, rfl, .nil⟩⟩
  · obtain ⟨heaps, logs, outcome⟩ :=
      runCalls_alike h host empty sorted sorted' alike
    rw [run_eq empty, run_eq empty]
    refine ⟨congrArg Heap.host heaps, ?_⟩
    rcases outcome with ⟨⟨index, e⟩, refused, refused'⟩ | ⟨pieces, pieces', ok, ok', woven⟩
    · exact .inr ⟨_, _, finish_of_error refused, finish_of_error refused', rfl, rfl, logs⟩
    · -- the last check of a run looks at times, and finds the pieces as sorted as the calls
      have inOrder : InOrder ((Heap.queued h (Heap.start h host)).map Origin.setup.noteCall
          ++ pieces.flatMap Piece.calls) := inOrder_pieces sorted woven.framed
      have inOrder' : InOrder ((Heap.queued h (Heap.start h host)).map Origin.setup.noteCall
          ++ pieces'.flatMap Piece.calls) := inOrder_pieces sorted' woven.framed'
      have traces : List.Forall₂ Call.Alike
          ((Heap.queued h (Heap.start h host)).map Origin.setup.noteCall
            ++ pieces.flatMap Piece.calls)
          ((Heap.queued h (Heap.start h host)).map Origin.setup.noteCall
            ++ pieces'.flatMap Piece.calls) :=
        List.rel_append (List.forall₂_same.mpr fun c _ => .refl c) (flatMap_calls_alike woven.alike)
      refine .inl ⟨_, _, finish_of_ok inOrder ok, finish_of_ok inOrder' ok', traces,
        ⟨pieces, pieces', rfl, rfl, woven⟩, ?_, ?_, ?_, ?_, logs⟩
      · rw [heaps]
      · rw [heaps]
      · rw [heaps]
      · unfold Run.counts Trace.count
        simp only [countP_alike traces, traces.length_eq, logs.length_eq]

/-- The same calls at the end of the clock, where the sums of times and durations stop. -/
def twoBlocksLate : List Call :=
  [⟨.malloc 2 none none, none, none, 0, ⟨7⟩, ⟨0⟩⟩,
    ⟨.malloc 3 (some 4) none, some (.named "pinned"), none, 1, ⟨7⟩, ⟨18446744073709551615⟩⟩,
    ⟨.free (some 0) none, none, none, 0, ⟨18446744073709551615⟩, ⟨18446744073709551615⟩⟩]

/-- An allocator that annotates what it does leaves the same blocks. -/
theorem run_ignores_times_of_twoBlocks :
    InOrder twoBlocks ∧ InOrder twoBlocksLate ∧
    List.Forall₂ Call.Alike twoBlocks twoBlocksLate ∧
    ∃ r r', (run (FirstFit.host 8) .default { FirstFit.empty 8 with annotating := true }
        twoBlocks).1 = .ok r ∧
      (run (FirstFit.host 8) .default { FirstFit.empty 8 with annotating := true }
        twoBlocksLate).1 = .ok r' ∧
      r.trace.calls.length = 5 ∧ List.Forall₂ Call.Alike r.trace.calls r'.trace.calls ∧
      r'.live = r.live := by
  have sorted : InOrder twoBlocks :=
    inOrder_of_firstUnsortedFrom (show firstUnsorted _ = none by decide)
  have sorted' : InOrder twoBlocksLate :=
    inOrder_of_firstUnsortedFrom (show firstUnsorted _ = none by decide)
  have alike : List.Forall₂ Call.Alike twoBlocks twoBlocksLate :=
    .cons rfl (.cons rfl (.cons rfl .nil))
  obtain ⟨r₀, succeeds, length⟩ : ∃ r₀, (run (FirstFit.host 8) .default
      { FirstFit.empty 8 with annotating := true } twoBlocks).1 = .ok r₀ ∧
      r₀.trace.calls.length = 5 := ⟨_, rfl, rfl⟩
  obtain ⟨-, ⟨r, r', ok, ok', traces, -, live, -⟩ | ⟨e, -, error, -⟩⟩ :=
    run_ignores_times (FirstFit.host 8) .default { FirstFit.empty 8 with annotating := true }
      sorted sorted' alike
  · rw [succeeds] at ok
    cases ok
    exact ⟨sorted, sorted', alike, r₀, r', succeeds, ok', length, traces, live⟩
  · rw [succeeds] at error
    cases error

end Runs

end Heapscope
