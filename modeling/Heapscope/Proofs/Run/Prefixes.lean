import Heapscope.Proofs.Run.Woven

/-!
# Runs of prefixes

A run makes its calls in order and never looks ahead.  What it has done after some of the calls is
what a run of these calls does, and a run that is refused at a call is refused there whatever comes
behind it.

* `Heap.steps_append_of_ok`, `Heap.steps_append_of_error` -- calls behind others are made from where
  these have led, or not at all;
* `Heap.steps_refused_at`, `run_error_iff_step` -- the call at which a run is refused;
* `PiecesOf` -- the pieces that the calls of a run add to its trace;
* `run_decided_by_prefix` -- runs that succeed and runs that fail, on prefixes and on extensions.
-/

namespace Heapscope

namespace Heap

variable {σ : Type} {h : Host σ} {palette : Palette} {heap : Heap σ}

/-- What comes behind a call that is refused is never looked at. -/
theorem steps_append_of_error {index : Nat} {xs : List Call} {e : Option Nat × Refusal}
    (error : (heap.steps h palette index xs).result = .error e) (ys : List Call) :
    heap.steps h palette index (xs ++ ys) = heap.steps h palette index xs := by
  induction xs generalizing heap index with
  | nil => cases error
  | cons call rest ih =>
    cases first : (heap.step h palette index call).result with
    | error e' =>
      rw [List.cons_append, steps, steps]
      simp only [first]
    | ok calls =>
      rw [(steps_cons_of_ok rest first).2] at error
      rw [List.cons_append, steps, steps]
      simp only [first, ih (error_of_map_error error)]

/-- Behind calls that are not refused a run goes on from memory after them. -/
theorem steps_append_of_ok {index : Nat} {xs made : List Call}
    (ok : (heap.steps h palette index xs).result = .ok made) (ys : List Call) :
    heap.steps h palette index (xs ++ ys) =
      let more := (heap.steps h palette index xs).heap.steps h palette (index + xs.length) ys
      ⟨more.heap, (heap.steps h palette index xs).logs ++ more.logs,
        more.result.map (made ++ ·)⟩ := by
  induction xs generalizing heap index made with
  | nil =>
    cases ok
    rw [List.nil_append, List.length_nil, Nat.add_zero]
    show _ = Outcome.mk _ _ ((heap.steps h palette index ys).result.map id)
    rw [Except.map_id]
    rfl
  | cons call rest ih =>
    cases first : (heap.step h palette index call).result with
    | error e =>
      rw [steps_cons_of_error first] at ok
      cases ok
    | ok calls =>
      rw [(steps_cons_of_ok rest first).2] at ok
      obtain ⟨tail, more, rfl⟩ := exists_of_map_ok ok
      rw [List.cons_append, steps, steps, List.length_cons, Nat.add_comm rest.length,
        ← Nat.add_assoc]
      simp only [first, ih more, map_map, List.append_assoc]

/-- A run is refused at one of its calls; the calls in front of it are made, and whatever stands
behind it the run is the same. -/
theorem steps_refused_at {index : Nat} {calls : List Call} {place : Option Nat} {e : Refusal}
    (error : (heap.steps h palette index calls).result = .error (place, e)) :
    ∃ i < calls.length, place = some (index + i) ∧
      (∃ made, (heap.steps h palette index (calls.take i)).result = .ok made) ∧
      ∀ calls', calls'.take (i + 1) = calls.take (i + 1) →
        heap.steps h palette index calls' = heap.steps h palette index calls := by
  obtain ⟨front, call, back, made, rfl, ok, refused⟩ := steps_error error
  have stopped : (heap.steps h palette index (front ++ [call])).result = .error (place, e) := by
    rw [steps_append_of_ok ok]
    simp only
    rw [steps_cons_of_error refused]
    rfl
  have whole : front ++ call :: back = front ++ [call] ++ back := List.append_cons front call back
  have upTo : (front ++ call :: back).take (front.length + 1) = front ++ [call] := by
    rw [whole]
    exact List.take_left' (by simp)
  refine ⟨front.length, by simp, ?_, ⟨made, ?_⟩, ?_⟩
  · exact (collect_error refused).1
  · rw [List.take_left' rfl]
    exact ok
  · intro calls' same
    rw [upTo] at same
    rw [whole, ← List.take_append_drop (front.length + 1) calls', same,
      steps_append_of_error stopped, steps_append_of_error stopped]

end Heap

/-! ## Whole runs -/

section Runs

variable {σ : Type} {h : Host σ} {palette : Palette} {host : σ} {calls calls' : List Call}

/-- The pieces that the calls of a run add to its trace: each call with what is known after it, and
the annotations that the allocator has queued by then. -/
structure PiecesOf (h : Host σ) (palette : Palette) (host : σ) (calls : List Call)
    (pieces : List Piece) : Prop where
  length_eq : pieces.length = calls.length
  enriched : ∀ (i : Nat) (call : Call) (piece : Piece), calls[i]? = some call →
    pieces[i]? = some piece →
      Enriched palette ((calls.take i).countP Call.isUncolored) call piece.call
  notes : ∀ (i : Nat) (call : Call) (piece : Piece), calls[i]? = some call →
    pieces[i]? = some piece →
      piece.notes = Heap.drained h palette (Heap.before h palette host calls i) call

/-- A run of sorted calls succeeds when its setup and its steps do. -/
theorem run_of_steps_ok {notes made : List Call} (nonempty : palette.colors ≠ [])
    (sorted : InOrder calls) (noted : (Heap.setup h host).result = .ok notes)
    (stepped : ((Heap.setup h host).heap.steps h palette 0 calls).result = .ok made) :
    ∃ r, (run h palette host calls).1 = .ok r ∧ r.trace.calls = notes ++ made ∧
      r.logs = (Heap.setup h host).logs
        ++ ((Heap.setup h host).heap.steps h palette 0 calls).logs := by
  have outcome : runCalls h palette host calls = _ := runCalls_of_inOrder noted sorted
  rw [stepped] at outcome
  have made_all : (runCalls h palette host calls).result = .ok (notes ++ made) := by
    rw [outcome]
    rfl
  obtain ⟨r, succeeds, trace, logs, -⟩ := run_of_runCalls_ok nonempty made_all
  rw [outcome] at logs
  exact ⟨r, succeeds, trace, logs⟩

/-- Only the steps tell runs of sorted calls apart. -/
theorem run_congr (sorted : InOrder calls) (sorted' : InOrder calls')
    (same : (Heap.setup h host).heap.steps h palette 0 calls'
      = (Heap.setup h host).heap.steps h palette 0 calls) :
    run h palette host calls' = run h palette host calls := by
  have outcome : runCalls h palette host calls' = runCalls h palette host calls := by
    cases noted : (Heap.setup h host).result with
    | error e => rw [runCalls_eq, runCalls_eq, noted]
    | ok notes => rw [runCalls_of_inOrder noted sorted, runCalls_of_inOrder noted sorted', same]
  unfold run
  rw [outcome]

/-- Behind a setup that is not refused, a run of sorted calls fails at one of its steps. -/
theorem steps_error_of_run_error {notes : List Call} (nonempty : palette.colors ≠ [])
    (sorted : InOrder calls) (noted : (Heap.setup h host).result = .ok notes) {e : RunFailure}
    (error : (run h palette host calls).1 = .error e) :
    ((Heap.setup h host).heap.steps h palette 0 calls).result
      = .error (e.callIndex, e.refusal) := by
  cases stepped : ((Heap.setup h host).heap.steps h palette 0 calls).result with
  | ok made =>
    obtain ⟨r, succeeds, -⟩ := run_of_steps_ok nonempty sorted noted stepped
    rw [succeeds] at error
    cases error
  | error refused =>
    have stopped : (runCalls h palette host calls).result = .error refused := by
      rw [runCalls_of_inOrder noted sorted, stepped]
      rfl
    rw [run_of_runCalls_error nonempty stopped] at error
    cases error
    rfl

/-- A run of sorted calls fails before it looks at them, or at one of its steps. -/
theorem run_error_of_sorted (sorted : InOrder calls) {e : RunFailure}
    (error : (run h palette host calls).1 = .error e) :
    (e.callIndex = none ∧ ∀ calls', run h palette host calls' = run h palette host calls) ∨
    (palette.colors ≠ [] ∧ ∃ notes, (Heap.setup h host).result = .ok notes ∧
      ((Heap.setup h host).heap.steps h palette 0 calls).result
        = .error (e.callIndex, e.refusal)) := by
  by_cases empty : palette.colors = []
  · rw [run_of_no_colors empty] at error
    cases error
    exact .inl ⟨rfl, fun calls' => by rw [run_of_no_colors empty, run_of_no_colors empty]⟩
  · cases noted : (Heap.setup h host).result with
    | error refused =>
      obtain ⟨index, refusal⟩ := refused
      have same : ∀ calls', runCalls h palette host calls'
          = ⟨(Heap.setup h host).heap, (Heap.setup h host).logs, .error (index, refusal)⟩ := by
        intro calls'
        rw [runCalls_eq, noted]
      have before : index = none := (Heap.collect_error noted).1
      rw [run_eq empty, same] at error
      cases error
      exact .inl ⟨before, fun calls' => by rw [run_eq empty, run_eq empty, same, same]⟩
    | ok notes => exact .inr ⟨empty, notes, rfl, steps_error_of_run_error empty sorted noted error⟩

/-- Memory when the call at an index of a run is about to be made. -/
def Heap.Meets (h : Host σ) (palette : Palette) (host : σ) (calls : List Call) (i : Nat)
    (call : Call) (heap : Heap σ) : Prop :=
  calls[i]? = some call ∧ ∃ done, Heap.Reaches h palette host (calls.take i) done heap

/-- Behind a setup that is not refused, a run of sorted calls fails exactly when the step of one of
its calls does, with the refusal of this step. -/
theorem run_error_iff_step {notes : List Call} (nonempty : palette.colors ≠ [])
    (sorted : InOrder calls) (noted : (Heap.setup h host).result = .ok notes) {place : Option Nat}
    {e : Refusal} :
    (∃ failure, (run h palette host calls).1 = .error failure ∧ failure.callIndex = place ∧
      failure.refusal = e) ↔
    ∃ i call heap, Heap.Meets h palette host calls i call heap ∧
      (heap.step h palette i call).result = .error (place, e) := by
  constructor
  · rintro ⟨failure, error, rfl, rfl⟩
    obtain ⟨front, call, back, made, rfl, ok, refused⟩ :=
      Heap.steps_error (steps_error_of_run_error nonempty sorted noted error)
    rw [Nat.zero_add] at refused
    refine ⟨front.length, call, _, ⟨by simp, notes ++ made, notes, made, noted, ?_, rfl, ?_⟩, refused⟩
    · rw [List.take_left' rfl]
      exact ok
    · rw [List.take_left' rfl]
  · rintro ⟨i, call, heap, ⟨here, done, notes', made, noted', ok, -, rfl⟩, refused⟩
    obtain ⟨lt, rfl⟩ := List.getElem?_eq_some_iff.mp here
    have split : calls = calls.take i ++ calls[i] :: calls.drop (i + 1) := by
      rw [List.getElem_cons_drop, List.take_append_drop]
    have stopped : ((Heap.setup h host).heap.steps h palette 0 calls).result = .error (place, e) := by
      rw [split, Heap.steps_append_of_ok ok]
      simp only [Nat.zero_add, List.length_take, Nat.min_eq_left (Nat.le_of_lt lt)]
      rw [Heap.steps_cons_of_error refused]
      rfl
    have failed : (runCalls h palette host calls).result = .error (place, e) := by
      rw [runCalls_of_inOrder noted sorted, stopped]
      rfl
    exact ⟨_, run_of_runCalls_error nonempty failed, rfl, rfl⟩

theorem inOrder_take (sorted : InOrder calls) (n : Nat) : InOrder (calls.take n) :=
  List.Pairwise.sublist (List.take_sublist n calls) sorted

/-- A run depends on its calls only up to where it stops.  When a run of sorted calls succeeds, so
does the run of the first of them, however many: it adds the first pieces to the same annotations of
the setup, and its messages come first.  When it is refused at a call, the run of the calls in front
succeeds, and every run that agrees up to this call is refused there in the same way.  When it fails
before the first call, all runs do. -/
theorem run_decided_by_prefix (h : Host σ) (palette : Palette) (host : σ)
    (sorted : InOrder calls) :
    (∀ r, (run h palette host calls).1 = .ok r → ∃ pieces : List Piece,
      PiecesOf h palette host calls pieces ∧
      r.trace.calls = (Heap.queued h (Heap.start h host)).map Origin.setup.noteCall
        ++ pieces.flatMap Piece.calls ∧
      ∀ n, ∃ r', (run h palette host (calls.take n)).1 = .ok r' ∧
        r'.trace.calls = (Heap.queued h (Heap.start h host)).map Origin.setup.noteCall
          ++ (pieces.take n).flatMap Piece.calls ∧
        r'.trace.calls <+: r.trace.calls ∧ r'.logs <+: r.logs) ∧
    (∀ e i, (run h palette host calls).1 = .error e → e.callIndex = some i →
      i < calls.length ∧ (∃ r, (run h palette host (calls.take i)).1 = .ok r) ∧
      ∀ calls', InOrder calls' → calls'.take (i + 1) = calls.take (i + 1) →
        (run h palette host calls').1 = .error e) ∧
    ∀ e, (run h palette host calls).1 = .error e → e.callIndex = none →
      ∀ calls', (run h palette host calls').1 = .error e := by
  refine ⟨?succeeds, ?refused, ?before⟩
  case succeeds =>
    intro r ok
    have nonempty := colors_ne_nil_of_run_ok ok
    obtain ⟨heap, ⟨notes, made, noted, stepped, trace, -⟩, -⟩ := run_ok ok
    obtain ⟨rfl, uncolored⟩ := setup_notes noted
    obtain ⟨pieces, rfl, framed, each, taken⟩ := Heap.steps_pieces nonempty stepped
    rw [uncolored] at each
    refine ⟨pieces, ⟨framed.length_eq.symm, ?_, ?_⟩, trace, ?_⟩
    · intro i call piece at_i piece_i
      have enriched := (each i call piece at_i piece_i).1
      rwa [Nat.zero_add] at enriched
    · intro i call piece at_i piece_i
      exact (each i call piece at_i piece_i).2
    · intro n
      obtain ⟨r', succeeds, trace', logs'⟩ :=
        run_of_steps_ok nonempty (inOrder_take sorted n) noted (taken n)
      obtain ⟨r'', ok', -, logs⟩ := run_of_steps_ok nonempty sorted noted stepped
      rw [ok] at ok'
      cases ok'
      refine ⟨r', succeeds, trace', ?_, ?_⟩
      · rw [trace, trace', List.prefix_append_right_inj]
        nth_rewrite 2 [← List.take_append_drop n pieces]
        rw [List.flatMap_append]
        exact List.prefix_append _ _
      · rw [logs, logs', List.prefix_append_right_inj]
        nth_rewrite 2 [← List.take_append_drop n calls]
        rw [Heap.steps_append_of_ok (taken n)]
        exact List.prefix_append _ _
  case refused =>
    intro e i error index
    rcases run_error_of_sorted sorted error with ⟨before, -⟩ | ⟨nonempty, notes, noted, stopped⟩
    · rw [before] at index
      cases index
    · obtain ⟨j, lt, place, ⟨made, front⟩, alike⟩ := Heap.steps_refused_at stopped
      rw [index, Nat.zero_add] at place
      cases place
      obtain ⟨r, succeeds, -⟩ := run_of_steps_ok nonempty (inOrder_take sorted i) noted front
      refine ⟨lt, ⟨r, succeeds⟩, ?_⟩
      intro calls' sorted' same
      rw [run_congr sorted sorted' (alike calls' same), error]
  case before =>
    intro e error index calls'
    rcases run_error_of_sorted sorted error with ⟨-, same⟩ | ⟨-, notes, -, stopped⟩
    · rw [same, error]
    · obtain ⟨j, -, place, -⟩ := Heap.steps_refused_at stopped
      rw [index] at place
      cases place

/-- A block that fits, one that does not, and a pause. -/
def outgrowing : List Call :=
  [⟨.malloc 6 none none, none, none, 0, ⟨1⟩, ⟨4⟩⟩, ⟨.malloc 5 none none, none, none, 0, ⟨2⟩, ⟨4⟩⟩,
    ⟨.sleep, none, none, 1, ⟨2⟩, ⟨1⟩⟩]

/-- The first call is made, and the second is refused whatever comes behind it. -/
theorem run_decided_by_prefix_of_outgrowing :
    InOrder outgrowing ∧
    (∃ r, (run (FirstFit.host 8) .default (FirstFit.empty 8) (outgrowing.take 1)).1 = .ok r) ∧
    ∃ e, e.refusal = .outOfMemory 5 (-1) 8 ∧ e.callIndex = some 1 ∧
      ∀ later, InOrder (outgrowing.take 2 ++ later) →
        (run (FirstFit.host 8) .default (FirstFit.empty 8) (outgrowing.take 2 ++ later)).1
          = .error e := by
  have sorted : InOrder outgrowing :=
    inOrder_of_firstUnsortedFrom (show firstUnsorted _ = none by decide)
  obtain ⟨e, fails, refusal, index⟩ : ∃ e,
      (run (FirstFit.host 8) .default (FirstFit.empty 8) outgrowing).1 = .error e ∧
        e.refusal = .outOfMemory 5 (-1) 8 ∧ e.callIndex = some 1 := ⟨_, rfl, rfl, rfl⟩
  obtain ⟨-, refused, -⟩ :=
    run_decided_by_prefix (FirstFit.host 8) .default (FirstFit.empty 8) sorted
  obtain ⟨-, front, alike⟩ := refused e 1 fails index
  exact ⟨sorted, front, e, refusal, index, fun later sorted' => alike _ sorted' rfl⟩

end Runs

end Heapscope
