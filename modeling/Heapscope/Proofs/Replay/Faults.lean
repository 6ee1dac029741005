import Heapscope.Proofs.Replay.Seeking
import Mathlib.Data.List.Induction

/-!
# Faults of a trace

A trace can be replayed on a canvas when its notes are valid there, its allocations have returned
cells of the canvas, and each release names an address at which a block is.  Of any other trace the
first fault is reported: those of notes come first, then those of calls that cannot be played, then
those of calls whose cells are not on the canvas.

* `Replayable` -- the rules for a trace;
* `replayFaults` -- all faults of a trace, in the order in which they are looked for;
* `isSome_sizeAt_iff`, `sizeAt_last` -- the block at an address;
* `Timeline.reports_start` -- opening a timeline reports the first fault;
* `replayFaults_eq_nil_iff` -- a trace that keeps the rules has none.
-/

namespace Heapscope

/-! ## Rules and faults -/

namespace Call

/-- The size of the block that a call returned at an address. -/
def returnedAt? (address : UInt32) (c : Call) : Option UInt32 :=
  match c.op with
  | .malloc size _ _ => if c.result = some address then some size else none
  | .free .. | .sleep | .annotate _ => none

/-- A call releases an address. -/
def Frees (address : UInt32) (c : Call) : Prop := ∃ color, c.op = .free (some address) color

/-- The cells of a call: the first one and their number.  A release has those of the block that is
at its address. -/
def cells? (done : List Call) (c : Call) : Option (UInt32 × UInt32) :=
  match c.op with
  | .malloc size _ _ => c.result.map fun address => (address, size)
  | .free address _ => address.bind fun a => (sizeAt a done).map fun size => (a, size)
  | .annotate note => some (note.address, note.extent)
  | .sleep => none

/-- The fault of a call with a note that is not valid. -/
def noteFault? (capacity : UInt32) (c : Call) : Option ReplayError :=
  match c.op with
  | .annotate note =>
    match note.validate capacity with
    | .error e => some (.invalid e)
    | .ok () => none
  | .malloc .. | .free .. | .sleep => none

/-- The fault of a call that has no address, or releases one at which there is no block. -/
def playFault? (done : List Call) (c : Call) : Option ReplayError :=
  match c.op with
  | .malloc .. => if c.result.isNone then some (.unresolved done.length) else none
  | .free none _ => some (.unresolved done.length)
  | .free (some a) _ => if (sizeAt a done).isNone then some (.unmatched done.length a) else none
  | .sleep | .annotate _ => none

/-- The fault of cells that are not on a canvas. -/
def cellFault? (capacity : UInt32) (cells : UInt32 × UInt32) : Option ReplayError :=
  if capacity.toNat < cells.1.toNat + cells.2.toNat then
    some (.outsideView cells.1 cells.2 capacity)
  else none

end Call

/-- The faults of calls in their order, each with an eye on the calls before. -/
def faultsFrom (fault? : List Call → Call → Option ReplayError) (done : List Call) :
    List Call → List ReplayError
  | [] => []
  | c :: rest => (fault? done c).toList ++ faultsFrom fault? (done ++ [c]) rest

/-- All faults of a trace: those of notes, then those of calls that cannot be played, then those of
calls whose cells are not on the canvas. -/
def replayFaults (capacity : UInt32) (calls : List Call) : List ReplayError :=
  faultsFrom (fun _ c => c.noteFault? capacity) [] calls
    ++ faultsFrom (fun done c => c.playFault? done) [] calls
    ++ faultsFrom (fun done c => (c.cells? done).bind (Call.cellFault? capacity)) [] calls

/-- A block is at an address: it was returned there, and no call after that released it. -/
def Allocated (done : List Call) (address : UInt32) : Prop :=
  ∃ front m back, done = front ++ m :: back ∧ (m.returnedAt? address).isSome ∧
    ∀ c ∈ back, ¬c.Frees address

/-- The rules for a trace that is replayed on a canvas. -/
structure Replayable (capacity : UInt32) (calls : List Call) : Prop where
  notes : ∀ c ∈ calls, ∀ note, c.op = .annotate note → note.validate capacity = .ok ()
  mallocs : ∀ c ∈ calls, ∀ size pinned color, c.op = .malloc size pinned color →
    ∃ address, c.result = some address ∧ address.toNat + size.toNat ≤ capacity.toNat
  frees : ∀ front c back, calls = front ++ c :: back → ∀ address? color,
    c.op = .free address? color → ∃ address, address? = some address ∧ Allocated front address

/-! ## Blocks at addresses -/

theorem sizeAt_concat (a : UInt32) (done : List Call) (c : Call) :
    sizeAt a (done ++ [c]) =
      match c.op with
      | .malloc n _ _ => if c.result = some a then some n else sizeAt a done
      | .free b _ => if b = some a then none else sizeAt a done
      | .sleep | .annotate _ => sizeAt a done := by
  unfold sizeAt
  rw [List.foldl_append]
  rfl

/-- What a call says about the block at an address, when it says something. -/
theorem sizeAt_concat_of_returned {a n : UInt32} {done : List Call} {c : Call}
    (returned : c.returnedAt? a = some n) : sizeAt a (done ++ [c]) = some n := by
  rw [sizeAt_concat]
  unfold Call.returnedAt? at returned
  cases op : c.op with
  | malloc size pinned color =>
    rw [op] at returned
    simp only at returned ⊢
    split at returned
    · rename_i result
      rw [if_pos result]
      exact returned
    · cases returned
  | free | sleep | annotate =>
    rw [op] at returned
    cases returned

theorem sizeAt_concat_of_frees {a : UInt32} {done : List Call} {c : Call} (frees : c.Frees a) :
    sizeAt a (done ++ [c]) = none := by
  obtain ⟨color, op⟩ := frees
  rw [sizeAt_concat, op]
  exact if_pos rfl

theorem sizeAt_concat_of_other {a : UInt32} {done : List Call} {c : Call}
    (silent : c.returnedAt? a = none) (keeps : ¬c.Frees a) :
    sizeAt a (done ++ [c]) = sizeAt a done := by
  rw [sizeAt_concat]
  unfold Call.returnedAt? at silent
  unfold Call.Frees at keeps
  cases op : c.op with
  | malloc n pinned color =>
    rw [op] at silent
    simp only [ite_eq_right_iff, reduceCtorEq, imp_false] at silent
    exact if_neg silent
  | free b color =>
    rw [op] at keeps
    refine if_neg ?_
    rintro rfl
    exact keeps ⟨color, rfl⟩
  | sleep | annotate => rfl

theorem allocated_concat_iff {a : UInt32} {done : List Call} {c : Call} :
    Allocated (done ++ [c]) a ↔ (c.returnedAt? a).isSome ∨ Allocated done a ∧ ¬c.Frees a := by
  constructor
  · rintro ⟨front, m, back, split, returned, keeps⟩
    rcases List.eq_nil_or_concat back with rfl | ⟨back, last, rfl⟩
    · obtain ⟨-, same⟩ := List.append_inj' split rfl
      cases same
      exact .inl returned
    · rw [List.concat_eq_append, ← List.cons_append, ← List.append_assoc] at split
      obtain ⟨rfl, same⟩ := List.append_inj' split rfl
      cases same
      rw [List.concat_eq_append, List.forall_mem_append] at keeps
      exact .inr ⟨⟨front, m, back, rfl, returned, keeps.1⟩, keeps.2 c List.mem_cons_self⟩
  · rintro (returned | ⟨⟨front, m, back, rfl, returned, keeps⟩, kept⟩)
    · exact ⟨done, c, [], rfl, returned, List.forall_mem_nil _⟩
    · refine ⟨front, m, back ++ [c], by simp, returned, ?_⟩
      rw [List.forall_mem_append]
      exact ⟨keeps, by simpa using kept⟩

theorem isSome_sizeAt_iff {a : UInt32} {done : List Call} :
    (sizeAt a done).isSome ↔ Allocated done a := by
  induction done using List.reverseRecOn with
  | nil =>
    refine iff_of_false Bool.false_ne_true ?_
    rintro ⟨front, m, back, split, -⟩
    exact List.append_ne_nil_of_right_ne_nil front (List.cons_ne_nil m back) split.symm
  | append_singleton done c ih =>
    rw [allocated_concat_iff, ← ih]
    cases returned : c.returnedAt? a with
    | some n => exact iff_of_true (by rw [sizeAt_concat_of_returned returned]; rfl) (.inl rfl)
    | none =>
      by_cases frees : c.Frees a
      · rw [sizeAt_concat_of_frees frees]
        simp [frees]
      · rw [sizeAt_concat_of_other returned frees]
        simp [frees]

/-- The block at an address is the one that was returned there last. -/
theorem sizeAt_last {a n : UInt32} {done : List Call} (allocated : sizeAt a done = some n) :
    (done.filterMap (Call.returnedAt? a)).getLast? = some n := by
  induction done using List.reverseRecOn with
  | nil => cases allocated
  | append_singleton done c ih =>
    cases returned : c.returnedAt? a with
    | some m =>
      rw [sizeAt_concat_of_returned returned] at allocated
      cases allocated
      rw [List.filterMap_append, List.filterMap_cons_some returned]
      exact List.getLast?_concat
    | none =>
      by_cases frees : c.Frees a
      · rw [sizeAt_concat_of_frees frees] at allocated
        cases allocated
      · rw [sizeAt_concat_of_other returned frees] at allocated
        rw [List.filterMap_append, List.filterMap_cons_none returned, List.filterMap_nil,
          List.append_nil]
        exact ih allocated

/-! ## The first fault is reported -/

theorem faultsFrom_eq_nil_iff {fault? : List Call → Call → Option ReplayError}
    {done calls : List Call} : faultsFrom fault? done calls = []
      ↔ ∀ front c back, calls = front ++ c :: back → fault? (done ++ front) c = none := by
  induction calls generalizing done with
  | nil => simp [faultsFrom]
  | cons c rest ih =>
    rw [faultsFrom, List.append_eq_nil_iff, ih, Option.toList_eq_nil_iff]
    constructor
    · rintro ⟨first, others⟩ front c' back split
      cases front with
      | nil =>
        cases split
        rwa [List.append_nil]
      | cons c'' front =>
        cases split
        rw [List.append_cons]
        exact others front c' back rfl
    · intro all
      refine ⟨?_, ?_⟩
      · have first := all [] c rest rfl
        rwa [List.append_nil] at first
      · intro front c' back split
        have later := all (c :: front) c' back (by rw [split]; rfl)
        rwa [List.append_cons] at later

theorem reports_mutation {done : List Call} {live : BlockSizes} (c : Call)
    (sizes : ∀ a, live.find? a = sizeAt a done) :
    Reports (c.mutation done.length live) (c.playFault? done).toList := by
  unfold Call.mutation Call.playFault?
  cases c.op with
  | malloc size pinned color => cases c.result <;> rfl
  | free address color =>
    cases address with
    | none => rfl
    | some a =>
      simp only [sizes]
      cases sizeAt a done <;> rfl
  | sleep | annotate => rfl

theorem reports_segmentsFrom {done calls : List Call} {live : BlockSizes}
    (sizes : ∀ a, live.find? a = sizeAt a done) :
    Reports (segmentsFrom done.length live calls)
      (faultsFrom (fun done c => c.playFault? done) done calls) := by
  induction calls generalizing done live with
  | nil => rfl
  | cons c rest ih =>
    unfold segmentsFrom faultsFrom
    refine (reports_mutation c sizes).bind ?_
    rintro ⟨m, live'⟩ ok
    obtain ⟨-, sizes'⟩ := plays_of_mutation sizes ok
    have next : (done ++ [c]).length = done.length + 1 := List.length_append
    have tail := ih sizes'
    rw [next] at tail
    exact tail.map _

/-- The cells of a call are those that its segment touches. -/
theorem Call.Plays.span_eq {done : List Call} {c : Call} {m : Mutation} (plays : c.Plays done m) :
    m.span = c.cells? done := by
  unfold Call.cells?
  cases plays with
  | malloc op result =>
    rw [op, result]
    rfl
  | free op allocated =>
    simp only [op, allocated, Option.bind_some, Option.map_some]
    rfl
  | sleep op | annotate op =>
    rw [op]
    rfl

theorem faultsFrom_of_segmentsFrom {capacity : UInt32} {done calls : List Call} {live : BlockSizes}
    {segments : List Segment} (sizes : ∀ a, live.find? a = sizeAt a done)
    (ok : segmentsFrom done.length live calls = .ok segments) :
    (segments.flatMap fun s => (s.mutation.span.bind (Call.cellFault? capacity)).toList)
      = faultsFrom (fun done c => (c.cells? done).bind (Call.cellFault? capacity)) done calls := by
  induction calls generalizing done live segments with
  | nil =>
    cases ok
    rfl
  | cons c rest ih =>
    unfold segmentsFrom at ok
    obtain ⟨⟨m, live'⟩, mutation, ok⟩ := exists_of_bind_ok ok
    obtain ⟨others, tail, ok⟩ := exists_of_bind_ok ok
    cases ok
    obtain ⟨plays, sizes'⟩ := plays_of_mutation sizes mutation
    have next : (done ++ [c]).length = done.length + 1 := List.length_append
    rw [List.flatMap_cons, faultsFrom, ih sizes' (next ▸ tail), plays.span_eq]

namespace Timeline

theorem reports_checkNotes (capacity : UInt32) (done calls : List Call) :
    Reports (checkNotes capacity calls)
      (faultsFrom (fun _ c => c.noteFault? capacity) done calls) := by
  have same : (calls.flatMap fun c => (c.noteFault? capacity).toList)
      = faultsFrom (fun _ c => c.noteFault? capacity) done calls := by
    induction calls generalizing done with
    | nil => rfl
    | cons c rest ih => rw [List.flatMap_cons, faultsFrom, ih]
  rw [← same]
  refine Reports.forM ?_ calls
  intro c
  unfold Call.noteFault?
  cases c.op with
  | malloc | free | sleep => rfl
  | annotate note => cases valid : note.validate capacity <;> simp [valid, Reports, Except.mapError]

theorem reports_cells (view : Canvas) (address size : UInt32) :
    Reports (cells view address size) (Call.cellFault? view.capacity (address, size)).toList := by
  show Reports (Except.mapError ReplayError.ofView (do
    view.checkCells address size
    pure (List.range' address.toNat size.toNat))) _
  unfold Call.cellFault?
  by_cases beyond : view.capacity.toNat < address.toNat + size.toNat
  · rw [if_pos beyond, Canvas.checkCells_error beyond]
    rfl
  · rw [if_neg beyond, Canvas.checkCells_ok_iff.mpr (Nat.le_of_not_lt beyond)]
    rfl

theorem reports_checkSpans (view : Canvas) (segments : List Segment) :
    Reports (checkSpans view segments) (segments.flatMap fun s =>
      (s.mutation.span.bind (Call.cellFault? view.capacity)).toList) := by
  refine Reports.forM ?_ segments
  intro s
  cases s.mutation.span with
  | none => rfl
  | some span => exact (reports_cells view span.1 span.2).map fun _ => ()

/-- Opening a timeline reports the first fault of the trace, and succeeds when there is none. -/
theorem reports_start (trace : Trace) (view : Canvas) :
    Reports (start trace view) (replayFaults view.capacity trace.calls) := by
  unfold replayFaults
  rw [List.append_assoc]
  refine (reports_checkNotes view.capacity [] trace.calls).bind fun _ _ => ?_
  have sizes : ∀ a, (OrderedMap.empty : BlockSizes).find? a = sizeAt a [] := fun _ => rfl
  refine (reports_segmentsFrom sizes).bind fun segments ok => ?_
  have spans := reports_checkSpans view segments
  rw [faultsFrom_of_segmentsFrom sizes ok] at spans
  -- the canvas has all cells of its own
  have own : Call.cellFault? view.capacity (0, view.capacity) = none := if_neg (by simp)
  have all := reports_cells view 0 view.capacity
  rw [own] at all
  have rest := spans.bind fun _ _ => all.map fun handles => opened trace view segments handles
  rw [Option.toList_none, List.append_nil] at rest
  exact rest

end Timeline

/-! ## Traces without faults -/

namespace Call

variable {c : Call} {capacity : UInt32} {done : List Call}

theorem noteFault?_eq_none_iff : c.noteFault? capacity = none
    ↔ ∀ note, c.op = .annotate note → note.validate capacity = .ok () := by
  unfold noteFault?
  cases c.op with
  | malloc | free | sleep => simp
  | annotate note => cases valid : note.validate capacity <;> simp [valid]

theorem playFault?_eq_none_iff : c.playFault? done = none ↔
    (∀ size pinned color, c.op = .malloc size pinned color → c.result.isSome) ∧
    ∀ address? color, c.op = .free address? color →
      ∃ address, address? = some address ∧ Allocated done address := by
  unfold playFault?
  cases c.op with
  | malloc size pinned color => cases c.result <;> simp
  | free address? color =>
    cases address? with
    | none => simp
    | some a => cases size : sizeAt a done <;> simp [← isSome_sizeAt_iff, size]
  | sleep | annotate => simp

theorem cellFault?_eq_none_iff {cells : UInt32 × UInt32} : cellFault? capacity cells = none
    ↔ cells.1.toNat + cells.2.toNat ≤ capacity.toNat := by
  unfold cellFault?
  split
  · exact iff_of_false nofun (by omega)
  · exact iff_of_true rfl (by omega)

theorem returnedAt?_eq_some_iff {a n : UInt32} : c.returnedAt? a = some n
    ↔ ∃ pinned color, c.op = .malloc n pinned color ∧ c.result = some a := by
  unfold returnedAt?
  cases c.op with
  | malloc size pinned color => simp [and_comm]
  | free | sleep | annotate => simp

end Call

namespace Replayable

variable {capacity : UInt32} {calls : List Call}

/-- The block at an address has the cells that its allocation returned. -/
theorem fits_of_sizeAt (rules : Replayable capacity calls) {front : List Call} {a n : UInt32}
    (before : front ⊆ calls) (allocated : sizeAt a front = some n) :
    a.toNat + n.toNat ≤ capacity.toNat := by
  obtain ⟨m, member, returned⟩ :=
    List.mem_filterMap.mp (List.mem_of_getLast? (sizeAt_last allocated))
  obtain ⟨pinned, color, op, result⟩ := Call.returnedAt?_eq_some_iff.mp returned
  obtain ⟨address, result', fits⟩ := rules.mallocs m (before member) n pinned color op
  rw [result] at result'
  cases result'
  exact fits

/-- The cells of every call are on the canvas. -/
theorem fits (rules : Replayable capacity calls) {front back : List Call} {c : Call}
    (split : calls = front ++ c :: back) {cells : UInt32 × UInt32}
    (touches : c.cells? front = some cells) :
    cells.1.toNat + cells.2.toNat ≤ capacity.toNat := by
  have member : c ∈ calls := split ▸ List.mem_append_right front List.mem_cons_self
  unfold Call.cells? at touches
  cases op : c.op with
  | malloc size pinned color =>
    obtain ⟨address, result, fits⟩ := rules.mallocs c member size pinned color op
    rw [op, result] at touches
    cases touches
    exact fits
  | free address? color =>
    simp only [op, Option.bind_eq_some_iff, Option.map_eq_some_iff] at touches
    obtain ⟨a, -, n, allocated, rfl⟩ := touches
    exact rules.fits_of_sizeAt (split ▸ List.subset_append_left front _) allocated
  | sleep =>
    rw [op] at touches
    cases touches
  | annotate note =>
    rw [op] at touches
    cases touches
    exact (Note.validate_ok_iff.mp (rules.notes c member note op)).2.2

end Replayable

/-- A trace has no faults when it keeps the rules. -/
theorem replayFaults_eq_nil_iff {capacity : UInt32} {calls : List Call} :
    replayFaults capacity calls = [] ↔ Replayable capacity calls := by
  unfold replayFaults
  simp only [List.append_eq_nil_iff, faultsFrom_eq_nil_iff, List.nil_append,
    Call.noteFault?_eq_none_iff, Call.playFault?_eq_none_iff, Option.bind_eq_none_iff,
    Call.cellFault?_eq_none_iff]
  constructor
  · rintro ⟨⟨notes, plays⟩, cells⟩
    refine ⟨?_, ?_, ?_⟩
    · intro c member
      obtain ⟨front, back, split⟩ := List.append_of_mem member
      exact notes front c back split
    · intro c member size pinned color op
      obtain ⟨front, back, split⟩ := List.append_of_mem member
      obtain ⟨address, result⟩ :=
        Option.isSome_iff_exists.mp ((plays front c back split).1 size pinned color op)
      refine ⟨address, result, cells front c back split (address, size) ?_⟩
      unfold Call.cells?
      rw [op, result]
      rfl
    · intro front c back split address? color op
      exact (plays front c back split).2 address? color op
  · intro rules
    refine ⟨⟨?_, ?_⟩, fun front c back split cells touches => rules.fits split touches⟩
    · intro front c back split
      exact rules.notes c (split ▸ List.mem_append_right front List.mem_cons_self)
    · intro front c back split
      refine ⟨?_, rules.frees front c back split⟩
      intro size pinned color op
      obtain ⟨address, result, -⟩ := rules.mallocs c
        (split ▸ List.mem_append_right front List.mem_cons_self) size pinned color op
      rw [result]
      rfl

end Heapscope
