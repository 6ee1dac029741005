import Heapscope.Host.FirstFit
import Heapscope.Proofs.Run.Agreement

/-!
# Traces are woven

The trace of a run is the annotations of the setup, then each call with what is known after it,
followed by the annotations that it led to.  These carry the time and the thread of their call, so
the trace is as sorted as the calls were, and the last check of a run never fails.

* `Enriched` -- a call as it enters the trace;
* `Piece`, `Heap.steps_pieces` -- a run adds a piece to the trace with each call;
* `inOrder_pieces` -- the pieces of sorted calls are sorted;
* `run_weaves_annotations` -- the trace of a run and its counters.
-/

namespace Heapscope

/-- A call as it enters the trace, where `turn` calls before it took their color from the palette:
an allocation gets the key of its block, its address and, if it has none, the color whose turn it
is; a release gets the key and the address of its block and, if it has none, the color. -/
inductive Enriched (palette : Palette) (turn : Nat) (call : Call) : Call → Prop
  | malloc {size address : UInt32} {pinned : Option UInt32} {color : Option Color}
      {paint : Color} (op : call.op = .malloc size pinned color)
      (given : ∀ c, color = some c → paint = c)
      (taken : color = none → palette.colors[turn % palette.colors.length]? = some paint) :
      Enriched palette turn call
        { call with
          op := .malloc size pinned (some paint)
          id := some (call.id.getD (.address address))
          result := some address }
  | free {address : UInt32} {asked : Option UInt32} {color : Option Color} {key : AllocationKey}
      {paint : Color} (op : call.op = .free asked color)
      (named : call.id.or (asked.map .address) = some key)
      (given : ∀ c, color = some c → paint = c) :
      Enriched palette turn call
        { call with op := .free (some address) (some paint), id := some key }
  | sleep (op : call.op = .sleep) : Enriched palette turn call call
  | annotate {note : Note} (op : call.op = .annotate note) : Enriched palette turn call call

/-- What a call keeps when it enters the trace. -/
structure Call.Framed (call done : Call) : Prop where
  thread_eq : done.thread = call.thread
  time_eq : done.time = call.time
  duration_eq : done.duration = call.duration
  name_eq : done.op.name = call.op.name

theorem Enriched.framed {palette : Palette} {turn : Nat} {call done : Call}
    (enriched : Enriched palette turn call done) : call.Framed done := by
  cases enriched with
  | malloc op | free op => exact ⟨rfl, rfl, rfl, by rw [op]; rfl⟩
  | sleep | annotate => exact ⟨rfl, rfl, rfl, rfl⟩

/-- The colors of a palette are taken in turn. -/
theorem Palette.getElem?_color {palette : Palette} (nonempty : palette.colors ≠ []) (turn : Nat) :
    palette.colors[turn % palette.colors.length]? = some (palette.color turn) := by
  have inside : turn % palette.colors.length < palette.colors.length :=
    Nat.mod_lt _ (List.length_pos_iff.mpr nonempty)
  unfold Palette.color
  rw [List.getElem?_eq_getElem inside, List.getD_eq_getElem _ _ inside]

/-- Whether a call allocates a block and leaves its color to the palette. -/
def Call.isUncolored (c : Call) : Bool :=
  match c.op with
  | .malloc _ _ none => true
  | _ => false

/-- A call of a trace, with the annotations that follow it. -/
structure Piece where
  call : Call
  notes : List Note

/-- The annotations carry the thread, the time and the duration of their call. -/
def Piece.calls (p : Piece) : List Call :=
  p.call :: p.notes.map fun note =>
    ⟨.annotate note, none, none, p.call.thread, p.call.time, p.call.duration⟩

/-! ## One piece for each call -/

namespace Heap

variable {σ : Type} {h : Host σ} {palette : Palette} {heap heap' : Heap σ} {call : Call}

/-- The annotations that the allocator has queued when a call has been made. -/
def drained (h : Host σ) (palette : Palette) (heap : Heap σ) (call : Call) : List Note :=
  queued h ({ heap with host := h.setThread call.thread heap.host }.apply h palette call).2

theorem enriched_of_applied {done : Call} (nonempty : palette.colors ≠ [])
    (applied : Applied h palette heap call done heap') :
    Enriched palette heap.uncolored call done ∧
      heap'.uncolored = heap.uncolored + if call.isUncolored then 1 else 0 := by
  cases applied with
  | @malloc size address pinned color key block host bytes op _ _ named _ _ made =>
    subst made named
    constructor
    · refine .malloc op ?_ ?_
      · rintro c rfl
        rfl
      · rintro rfl
        exact palette.getElem?_color nonempty heap.uncolored
    · unfold Call.isUncolored
      cases color <;> simp [op]
  | @free address color key block host bytes op named _ _ _ =>
    constructor
    · refine .free op named ?_
      rintro c rfl
      rfl
    · simp [Call.isUncolored, op]
  | sleep op => exact ⟨.sleep op, by simp [Call.isUncolored, op]⟩
  | annotate op => exact ⟨.annotate op, by simp [Call.isUncolored, op]⟩

/-- A step that is not refused adds its call, enriched, and the annotations that were queued. -/
theorem step_piece {index : Nat} {calls : List Call} (nonempty : palette.colors ≠ [])
    (ok : (heap.step h palette index call).result = .ok calls) :
    ∃ done, Enriched palette heap.uncolored call done ∧
      calls = (Piece.mk done (drained h palette heap call)).calls ∧
      (heap.step h palette index call).heap.uncolored
        = heap.uncolored + if call.isUncolored then 1 else 0 := by
  unfold drained
  unfold step at ok ⊢
  simp only at ok ⊢
  generalize made : apply h palette { heap with host := h.setThread call.thread heap.host } call
    = out at ok ⊢
  obtain ⟨result, heap'⟩ := out
  obtain ⟨front, eq, -, rfl⟩ := collect_ok ok
  cases result with
  | error e => cases eq
  | ok done =>
    cases eq
    obtain ⟨enriched, uncolored⟩ := enriched_of_applied nonempty (applied_of_apply_ok made)
    have framed := enriched.framed
    refine ⟨done, enriched, ?_, ?_⟩
    · unfold Piece.calls Origin.noteCall Origin.ofCall
      simp only [framed.thread_eq, framed.time_eq, framed.duration_eq]
      rfl
    · rw [collect_uncolored, uncolored]

/-- Calls that are not refused add one piece each, and the first of them have added the first
pieces.  The piece of a call is found from memory before it, which is memory after the calls in front
of it. -/
theorem steps_pieces {index : Nat} {calls made : List Call} (nonempty : palette.colors ≠ [])
    (ok : (heap.steps h palette index calls).result = .ok made) :
    ∃ pieces : List Piece, made = pieces.flatMap Piece.calls ∧
      List.Forall₂ (fun call p => call.Framed p.call) calls pieces ∧
      (∀ (i : Nat) (call : Call) (piece : Piece), calls[i]? = some call → pieces[i]? = some piece →
        Enriched palette (heap.uncolored + (calls.take i).countP Call.isUncolored) call piece.call ∧
        piece.notes = drained h palette (heap.steps h palette index (calls.take i)).heap call) ∧
      ∀ n, (heap.steps h palette index (calls.take n)).result
        = .ok ((pieces.take n).flatMap Piece.calls) := by
  induction calls generalizing heap index made with
  | nil =>
    cases ok
    refine ⟨[], rfl, .nil, fun i call piece at_i => by simp at at_i, fun n => ?_⟩
    rw [List.take_nil, List.take_nil]
    rfl
  | cons call rest ih =>
    cases first : (heap.step h palette index call).result with
    | error e =>
      rw [steps_cons_of_error first] at ok
      cases ok
    | ok calls =>
      rw [(steps_cons_of_ok rest first).2] at ok
      obtain ⟨tail, more, rfl⟩ := exists_of_map_ok ok
      obtain ⟨done, enriched, rfl, uncolored⟩ := step_piece nonempty first
      obtain ⟨pieces, rfl, framed, later, taken⟩ := ih more
      refine ⟨⟨done, drained h palette heap call⟩ :: pieces, rfl, .cons enriched.framed framed, ?_,
        ?_⟩
      · intro i call' piece at_i piece_i
        cases i with
        | zero =>
          cases at_i
          cases piece_i
          exact ⟨enriched, rfl⟩
        | succ i =>
          obtain ⟨enriched', notes⟩ := later i call' piece at_i piece_i
          rw [List.take_succ_cons, List.countP_cons, (steps_cons_of_ok _ first).1]
          refine ⟨?_, notes⟩
          rwa [uncolored, Nat.add_assoc, Nat.add_comm (if call.isUncolored then 1 else 0)]
            at enriched'
      · intro n
        cases n with
        | zero => rfl
        | succ n =>
          rw [List.take_succ_cons, List.take_succ_cons, (steps_cons_of_ok _ first).2, taken n]
          rfl

end Heap

/-! ## The order of the pieces -/

/-- Calls at the same times on the same threads are in the same order. -/
theorem before_congr {a a' b b' : Call} (time_a : a'.time = a.time)
    (thread_a : a'.thread = a.thread) (time_b : b'.time = b.time) (thread_b : b'.thread = b.thread) :
    a'.before b' = a.before b := by
  unfold Call.before
  rw [time_a, thread_a, time_b, thread_b]

theorem Piece.time_thread {p : Piece} :
    ∀ c ∈ p.calls, c.time = p.call.time ∧ c.thread = p.call.thread := by
  intro c member
  rcases List.mem_cons.mp member with rfl | follows
  · exact ⟨rfl, rfl⟩
  · obtain ⟨note, -, rfl⟩ := List.mem_map.mp follows
    exact ⟨rfl, rfl⟩

/-- Pieces are ordered as the calls they came from. -/
theorem pairwise_pieces {calls : List Call} {pieces : List Piece} (inOrder : InOrder calls)
    (framed : List.Forall₂ (fun call p => call.Framed p.call) calls pieces) :
    pieces.Pairwise fun p q => (!q.call.before p.call) = true := by
  have same : pieces.map (fun p => (p.call.time, p.call.thread))
      = calls.map fun c => (c.time, c.thread) := by
    induction framed with
    | nil => rfl
    | cons first _ ih => rw [List.map_cons, List.map_cons, ih (List.pairwise_cons.mp inOrder).2,
        first.time_eq, first.thread_eq]
  have sorted : (calls.map fun c => (c.time, c.thread)).Pairwise fun x y =>
      (!(decide (y.1 < x.1) || (y.1 == x.1 && decide (y.2 < x.2)))) = true :=
    List.pairwise_map.mpr inOrder
  rw [← same] at sorted
  exact List.pairwise_map.mp sorted

/-- Nothing comes before time zero on thread zero. -/
theorem not_before_setup (c : Call) (note : Note) :
    (!c.before (Origin.setup.noteCall note)) = true := by
  rw [Bool.not_eq_true', ← Bool.not_eq_true, before_iff]
  show ¬(c.time.count.toNat < 0 ∨ c.time.count.toNat = 0 ∧ c.thread.toNat < 0)
  omega

/-- The annotations of the setup and the pieces of sorted calls are sorted. -/
theorem inOrder_pieces {calls : List Call} {pieces : List Piece} {notes : List Note}
    (inOrder : InOrder calls)
    (framed : List.Forall₂ (fun call p => call.Framed p.call) calls pieces) :
    InOrder (notes.map Origin.setup.noteCall ++ pieces.flatMap Piece.calls) := by
  have setup : ∀ c ∈ notes.map Origin.setup.noteCall, ∀ d : Call, (!d.before c) = true := by
    intro c member d
    obtain ⟨note, -, rfl⟩ := List.mem_map.mp member
    exact not_before_setup d note
  unfold InOrder
  rw [List.pairwise_append, List.pairwise_flatMap]
  refine ⟨?_, ⟨?_, ?_⟩, fun c member d _ => setup c member d⟩
  · exact List.pairwise_of_forall_mem_list fun c member d _ => setup c member d
  · intro piece _
    refine List.pairwise_of_forall_mem_list fun c member d member' => ?_
    obtain ⟨time, thread⟩ := piece.time_thread c member
    obtain ⟨time', thread'⟩ := piece.time_thread d member'
    rw [before_congr time' thread' time thread, Bool.not_eq_true', ← Bool.not_eq_true, before_iff]
    omega
  · refine (pairwise_pieces inOrder framed).imp ?_
    intro p q ordered c member d member'
    obtain ⟨time, thread⟩ := p.time_thread c member
    obtain ⟨time', thread'⟩ := q.time_thread d member'
    rwa [before_congr time' thread' time thread]

/-! ## The counters -/

/-- How many annotations the allocator added to pieces. -/
def addedNotes (pieces : List Piece) : Nat := (pieces.map fun p => p.notes.length).sum

theorem countP_noteCall (o : Origin) (notes : List Note) (name : String) :
    (notes.map o.noteCall).countP (fun c => c.op.name == name)
      = if name = "annotate" then notes.length else 0 := by
  rw [List.countP_map]
  by_cases annotate : name = "annotate"
  · rw [if_pos annotate, List.countP_eq_length]
    intro note _
    simp [Origin.noteCall, Op.name, annotate]
  · rw [if_neg annotate, List.countP_eq_zero]
    intro note _
    simpa [Origin.noteCall, Op.name] using Ne.symm annotate

/-- Pieces have the operations of their calls, and as many annotations as were added. -/
theorem countP_pieces {calls : List Call} {pieces : List Piece} (name : String)
    (framed : List.Forall₂ (fun call p => call.Framed p.call) calls pieces) :
    (pieces.flatMap Piece.calls).countP (fun c => c.op.name == name)
      = calls.countP (fun c => c.op.name == name)
        + if name = "annotate" then addedNotes pieces else 0 := by
  induction framed with
  | nil => simp [addedNotes]
  | @cons call p rest others first _ ih =>
    have notes := countP_noteCall ⟨none, p.call.thread, p.call.time, p.call.duration⟩ p.notes name
    have piece : p.calls = p.call
        :: p.notes.map (Origin.noteCall ⟨none, p.call.thread, p.call.time, p.call.duration⟩) := rfl
    rw [List.flatMap_cons, List.countP_append, piece, List.countP_cons, List.countP_cons, notes, ih,
      first.name_eq]
    unfold addedNotes
    rw [List.map_cons, List.sum_cons]
    split <;> omega

theorem length_pieces (pieces : List Piece) :
    (pieces.flatMap Piece.calls).length = pieces.length + addedNotes pieces := by
  unfold addedNotes
  induction pieces with
  | nil => rfl
  | cons p rest ih =>
    rw [List.flatMap_cons, List.length_append, ih, List.map_cons, List.sum_cons]
    simp only [Piece.calls, List.length_cons, List.length_map]
    omega

/-! ## Whole runs -/

section Runs

variable {σ : Type} {h : Host σ} {palette : Palette} {host : σ} {calls : List Call}

/-- Memory before the call at an index of a run. -/
def Heap.before (h : Host σ) (palette : Palette) (host : σ) (calls : List Call) (i : Nat) :
    Heap σ :=
  ((setup h host).heap.steps h palette 0 (calls.take i)).heap

theorem setup_notes {notes : List Call} (ok : (Heap.setup h host).result = .ok notes) :
    notes = (Heap.queued h (Heap.start h host)).map Origin.setup.noteCall ∧
      (Heap.setup h host).heap.uncolored = 0 := by
  obtain ⟨made, eq, -, rfl⟩ := Heap.collect_ok ok
  cases eq
  exact ⟨rfl, Heap.collect_uncolored⟩

/-- The calls of a run that is not refused, as pieces. -/
theorem reaches_pieces {done : List Call} {heap : Heap σ} (nonempty : palette.colors ≠ [])
    (reaches : Heap.Reaches h palette host calls done heap) :
    ∃ pieces : List Piece,
      done = (Heap.queued h (Heap.start h host)).map Origin.setup.noteCall
        ++ pieces.flatMap Piece.calls ∧
      List.Forall₂ (fun call p => call.Framed p.call) calls pieces ∧
      ∀ (i : Nat) (call : Call) (piece : Piece), calls[i]? = some call → pieces[i]? = some piece →
        Enriched palette ((calls.take i).countP Call.isUncolored) call piece.call ∧
        piece.notes = Heap.drained h palette (Heap.before h palette host calls i) call := by
  obtain ⟨notes, made, noted, stepped, rfl, -⟩ := reaches
  obtain ⟨rfl, uncolored⟩ := setup_notes noted
  obtain ⟨pieces, rfl, framed, each, -⟩ := Heap.steps_pieces nonempty stepped
  rw [uncolored] at each
  refine ⟨pieces, rfl, framed, ?_⟩
  intro i call piece at_i piece_i
  obtain ⟨enriched, notes⟩ := each i call piece at_i piece_i
  rw [Nat.zero_add] at enriched
  exact ⟨enriched, notes⟩

theorem inOrder_of_runCalls_ok {made : List Call} (nonempty : palette.colors ≠ [])
    (ok : (runCalls h palette host calls).result = .ok made) : InOrder made := by
  obtain ⟨reaches, sorted⟩ := runCalls_ok ok
  obtain ⟨pieces, rfl, framed, -⟩ := reaches_pieces nonempty reaches
  exact inOrder_pieces (inOrder_of_firstUnsortedFrom sorted) framed

/-- Calls that are not refused make a run that succeeds: nothing else can go wrong. -/
theorem run_of_runCalls_ok {made : List Call} (nonempty : palette.colors ≠ [])
    (ok : (runCalls h palette host calls).result = .ok made) :
    ∃ r, (run h palette host calls).1 = .ok r ∧ r.trace.calls = made ∧
      r.logs = (runCalls h palette host calls).logs ∧
      r.live = (runCalls h palette host calls).heap.live := by
  have inOrder := inOrder_of_runCalls_ok nonempty ok
  let outcome := runCalls h palette host calls
  refine ⟨⟨⟨made, inOrder⟩, outcome.logs, outcome.heap.bytes.peak, outcome.heap.bytes.occupied,
    outcome.heap.live⟩, ?_, rfl, rfl, rfl⟩
  rw [run_eq nonempty]
  unfold Outcome.finish
  simp only [ok, Trace.ofCalls?_of_inOrder inOrder, outcome]

/-- The trace of a run is the annotations that were queued before the first call, at time zero on
thread zero, then each call with what is known after it, followed by the annotations that were
queued with it, at its time and on its thread.  It is sorted whenever no call is refused, so the
last check of a run never fails; and the counters count these calls. -/
theorem run_weaves_annotations (h : Host σ) (palette : Palette) (host : σ) (calls : List Call) :
    (palette.colors ≠ [] → ∀ made, (runCalls h palette host calls).result = .ok made →
      InOrder made ∧ ∃ r, (run h palette host calls).1 = .ok r ∧ r.trace.calls = made) ∧
    ∀ r, (run h palette host calls).1 = .ok r → ∃ pieces : List Piece,
      r.trace.calls = (Heap.queued h (Heap.start h host)).map
          (fun note => ⟨.annotate note, none, none, 0, .zero, .zero⟩)
        ++ pieces.flatMap Piece.calls ∧
      pieces.length = calls.length ∧
      (∀ (i : Nat) (call : Call) (piece : Piece), calls[i]? = some call → pieces[i]? = some piece →
        Enriched palette ((calls.take i).countP Call.isUncolored) call piece.call ∧
        piece.notes = Heap.drained h palette (Heap.before h palette host calls i) call) ∧
      InOrder r.trace.calls ∧
      r.counts =
        [(Heap.queued h (Heap.start h host)).length + calls.length + addedNotes pieces,
          calls.countP (fun c => c.op.name == "malloc"),
          calls.countP (fun c => c.op.name == "free"),
          (Heap.queued h (Heap.start h host)).length
            + calls.countP (fun c => c.op.name == "annotate") + addedNotes pieces,
          r.logs.length] := by
  constructor
  · intro nonempty made ok
    obtain ⟨r, succeeds, trace, -⟩ := run_of_runCalls_ok nonempty ok
    exact ⟨inOrder_of_runCalls_ok nonempty ok, r, succeeds, trace⟩
  · intro r ok
    have nonempty : palette.colors ≠ [] := by
      intro empty
      unfold run at ok
      rw [if_pos (by simp [empty])] at ok
      cases ok
    obtain ⟨heap, reaches, -⟩ := run_ok ok
    obtain ⟨pieces, trace, framed, each⟩ := reaches_pieces nonempty reaches
    refine ⟨pieces, trace, framed.length_eq.symm, each, r.trace.inOrder, ?_⟩
    have count : ∀ name, r.trace.count name
        = (if name = "annotate" then (Heap.queued h (Heap.start h host)).length else 0)
          + (calls.countP (fun c => c.op.name == name)
            + if name = "annotate" then addedNotes pieces else 0) := by
      intro name
      unfold Trace.count
      rw [trace, List.countP_append, countP_noteCall, countP_pieces name framed]
    have length : r.trace.calls.length
        = (Heap.queued h (Heap.start h host)).length + calls.length + addedNotes pieces := by
      rw [trace, List.length_append, List.length_map, length_pieces, framed.length_eq,
        Nat.add_assoc]
    unfold Run.counts
    rw [length, count "malloc", count "free", count "annotate"]
    simp [Nat.add_assoc]

/-- A block whose color is left to the palette, a pinned block, and a release by address. -/
def twoBlocks : List Call :=
  [⟨.malloc 2 none none, none, none, 0, ⟨0⟩, ⟨4⟩⟩,
    ⟨.malloc 3 (some 4) none, some (.named "pinned"), none, 1, ⟨0⟩, ⟨4⟩⟩,
    ⟨.free (some 0) none, none, none, 0, ⟨3⟩, ⟨1⟩⟩]

/-- A run of an allocator that annotates what it does, and has annotated before. -/
theorem run_weaves_annotations_of_firstFit :
    ∃ r, (run (FirstFit.host 8) .default
        { FirstFit.empty 8 with annotating := true, notes := [.bare (.remove .text) 3] }
        twoBlocks).1 = .ok r ∧
      InOrder r.trace.calls ∧ ∃ pieces : List Piece, pieces.length = 3 ∧
        r.trace.calls = ⟨.annotate (.bare (.remove .text) 3), none, none, 0, .zero, .zero⟩
          :: pieces.flatMap Piece.calls := by
  obtain ⟨weaves, shows⟩ := run_weaves_annotations (FirstFit.host 8) .default
    { FirstFit.empty 8 with annotating := true, notes := [.bare (.remove .text) 3] } twoBlocks
  obtain ⟨made, ok⟩ : ∃ made, (runCalls (FirstFit.host 8) .default
      { FirstFit.empty 8 with annotating := true, notes := [.bare (.remove .text) 3] }
      twoBlocks).result = .ok made := ⟨_, rfl⟩
  obtain ⟨-, r, succeeds, -⟩ := weaves (by decide) made ok
  obtain ⟨pieces, trace, length, -, inOrder, -⟩ := shows r succeeds
  exact ⟨r, succeeds, inOrder, pieces, length, trace⟩

end Runs

end Heapscope
