import Heapscope.Proofs.Guest.Emissions
import Heapscope.Proofs.Note

/-!
# Words across the boundary of a guest

Words cross the boundary between a guest and its allocator with a sign, and notes and blocks are
made of words without one.  The options keep the address space below the words with the highest bit,
so a negative word is found out by the bounds of the address space, wherever it turns up.

* `Note.faithful_of_valid` -- a valid note has the numbers that its binding was called with;
* `Guest.run_ok_faithful`, `Guest.run_error_of_negative` -- so it is in the trace of a run, and a run
  with a negative number fails;
* `Guest.run_of_large` -- a guest does not hear of a block that is too large for a word;
* `Guest.boundary_faithful` -- all of it.
-/

namespace Heapscope

/-! ## Numbers of notes -/

/-- The numbers of a note are those that a binding was called with, so none of these is negative. -/
structure Note.Faithful (n : Note) (b : Binding) : Prop where
  address : b.address?.map Int32.toInt = some (n.address.toNat : Int)
  size : b.size?.map Int32.toInt = n.size.map fun s => (s.toNat : Int)
  target : b.target?.map Int32.toInt = n.target.map fun t => (t.toNat : Int)

/-- A binding is called with a negative address, a negative size or a negative end of an arrow. -/
def Binding.Negative (b : Binding) : Prop :=
  ∃ x ∈ b.address?.toList ++ b.size?.toList ++ b.target?.toList, x.toInt < 0

namespace Note

variable {n : Note} {b : Binding} {capacity : UInt32}

theorem Faithful.not_negative (faithful : n.Faithful b) : ¬b.Negative := by
  rintro ⟨x, given, negative⟩
  rcases List.mem_append.mp given with given | given
  · rcases List.mem_append.mp given with given | given
    · have same := faithful.address
      rw [Option.mem_toList.mp given, Option.map_some, Option.some.injEq] at same
      omega
    · have same := faithful.size
      rw [Option.mem_toList.mp given, Option.map_some] at same
      obtain ⟨s, -, eq⟩ := Option.map_eq_some_iff.mp same.symm
      omega
  · have same := faithful.target
    rw [Option.mem_toList.mp given, Option.map_some] at same
    obtain ⟨t, -, eq⟩ := Option.map_eq_some_iff.mp same.symm
    omega

/-- A note that is valid in an address space whose size has no sign bit has the numbers that its
binding was called with. -/
theorem faithful_of_valid (carries : n.Carries b) (valid : n.validate capacity = .ok ())
    (small : capacity.toNat < 2 ^ 31) : n.Faithful b := by
  obtain ⟨fields, -, fits⟩ := validate_ok_iff.mp valid
  refine ⟨?_, ?_, ?_⟩
  · obtain ⟨x, given, eq⟩ := Option.map_eq_some_iff.mp carries.address
    rw [given, ← eq, Option.map_some, toInt_of_small (by rw [eq]; omega)]
  · cases given : b.size? with
    | none => rw [carries.size, given]; rfl
    | some x =>
      have size : n.size = some x.toUInt32 := by rw [carries.size, given]; rfl
      have covered := size_le_extent size
      rw [size, Option.map_some, Option.map_some, toInt_of_small (by omega)]
  · cases given : b.target? with
    | none => rw [carries.target, given]; rfl
    | some x =>
      have target : n.target = some x.toUInt32 := by rw [carries.target, given]; rfl
      -- only arrows have an end, and the end of an arrow is checked
      have arrow : n.kind = .add .pointer := by
        cases b <;> cases given
        exact (Option.some.inj carries.kind).symm
      simp only [checkFields, arrow, target, checkSpan_ok_iff] at fields
      rw [target, Option.map_some, Option.map_some, toInt_of_small (by omega)]

end Note

namespace Guest

variable {g : Guest} {o : GuestOptions} {palette : Palette}

/-- What was delivered is what the bindings asked for, with the numbers that they were called
with. -/
theorem Delivered.faithful {before after : Watched} {calls : List Call} {notes : List Note}
    {pieces : List Piece} (delivered : Delivered o before after calls notes pieces)
    (balanced : after.Balanced) (small : o.capacity.toNat < 2 ^ 31) :
    notes ++ pieces.flatMap Piece.notes = (Watched.emissions before after).filterMap Use.note? ∧
      ∀ u ∈ Watched.emissions before after, ∃ n, u.note? = some n ∧ n.Faithful u.binding := by
  have asked := Watched.emissions_notes balanced delivered.handed
  rw [delivered.drained, List.append_nil] at asked
  refine ⟨asked.symm, ?_⟩
  intro u emitted
  obtain ⟨n, added⟩ := Watched.exists_note_of_mem emitted
  have handed : n ∈ notes ++ pieces.flatMap Piece.notes := by
    rw [← asked]
    exact List.mem_filterMap.mpr ⟨u, emitted, added⟩
  exact ⟨n, added, Note.faithful_of_valid (Use.carries_of_note added) (delivered.valid n handed) small⟩

/-! ## Whole runs -/

section Runs

variable {source : ModuleSource} {m : Machine} {before : Watched} {calls : List Call}

/-- The address space of a loaded guest ends below the words with the highest bit. -/
theorem capacity_of_load (load : source.load o = .ok (g, m)) : o.capacity ≤ wordLimit := by
  have valid := (load_ok load).1
  unfold GuestOptions.validate at valid
  split at valid
  · cases valid
  · split at valid
    · cases valid
    · rename_i _ fits
      exact UInt32.not_lt.mp fits

theorem capacity_lt_of_load (load : source.load o = .ok (g, m)) : o.capacity.toNat < 2 ^ 31 :=
  Nat.lt_succ_of_le (UInt32.le_iff_toNat_le.mp (capacity_of_load load))

/-- The run fails at a call that is refused itself, and it is this call that called a binding. -/
def RefusedInside (g : Guest) (o : GuestOptions) (palette : Palette) (before : Watched)
    (calls : List Call) (e : RunFailure) (u : Use) : Prop :=
  ∃ front call back done heap called, calls = front ++ call :: back ∧
    Heap.Reaches (g.watched o) palette before front done heap ∧
    (heap.made (g.watched o) palette call).1 = .error e.refusal ∧
    e.callIndex = some front.length ∧
    (heap.made (g.watched o) palette call).2.host.uses = heap.host.uses ++ called ∧ u ∈ called

/-- A trace holds what the bindings asked for, with the numbers that they were called with. -/
theorem run_ok_faithful (load : source.load o = .ok (g, m))
    (reaches : (g.watched o).Reaches (g.loaded o m) before) {r : Run}
    (ok : (run (g.watched o) palette before calls).1 = .ok r) :
    ∃ notes pieces, r.trace.calls
        = notes.map Origin.setup.noteCall ++ pieces.flatMap Piece.calls ∧
      List.Forall₂ (fun call p => call.Framed p.call) calls pieces ∧
      notes ++ pieces.flatMap Piece.notes
        = (Watched.emissions before (run (g.watched o) palette before calls).2).filterMap
            Use.note? ∧
      ∀ u ∈ Watched.emissions before (run (g.watched o) palette before calls).2,
        ∃ n, u.note? = some n ∧ n.Faithful u.binding := by
  have small := capacity_lt_of_load load
  have balanced := balanced_run load reaches palette calls
  obtain ⟨heap, ⟨front, made, noted, stepped, trace, rfl⟩, -⟩ := run_ok ok
  have nonempty := colors_ne_nil_of_run_ok ok
  obtain ⟨notes, pieces, trace', delivered⟩ :=
    reaches_delivered nonempty ⟨front, made, noted, stepped, trace, rfl⟩
  rw [run_host ok] at balanced ⊢
  obtain ⟨asked, faithful⟩ := delivered.faithful balanced small
  exact ⟨notes, pieces, trace', delivered.framed, asked, faithful⟩

/-- A note with a negative number makes the run fail: for the note, unless the call that asked for it
is refused itself. -/
theorem run_error_of_negative (load : source.load o = .ok (g, m))
    (reaches : (g.watched o).Reaches (g.loaded o m) before) {u : Use}
    (emitted : u ∈ Watched.emissions before (run (g.watched o) palette before calls).2)
    (negative : u.binding.Negative) :
    ∃ e, (run (g.watched o) palette before calls).1 = .error e ∧
      (palette.colors ≠ [] →
        (∃ i, e.refusal = .invalid i) ∨ RefusedInside g o palette before calls e u) := by
  have small := capacity_lt_of_load load
  cases result : (run (g.watched o) palette before calls).1 with
  | ok r =>
    obtain ⟨-, -, -, -, -, faithful⟩ := run_ok_faithful load reaches result
    obtain ⟨n, -, same⟩ := faithful u emitted
    exact absurd negative same.not_negative
  | error e =>
    refine ⟨e, rfl, fun nonempty => ?_⟩
    rcases refused_of_run_error nonempty result with
      invalid | ⟨front, call, back, done, heap, split, reached, unmade, place, left⟩
    · exact .inl invalid
    · right
      obtain ⟨notes, pieces, -, delivered⟩ := reaches_delivered nonempty reached
      have balanced := (Watched.balanced_loaded load).reaches reaches |>.reaches
        (Heap.host_of_reaches reached)
      obtain ⟨-, faithful⟩ := delivered.faithful balanced small
      obtain ⟨-, called, more⟩ := made_watched g o palette heap call
      have all : (run (g.watched o) palette before calls).2.uses = heap.host.uses ++ called := by
        rw [left, ← more]
        rfl
      rw [Watched.emissions_call balanced delivered.handed all] at emitted
      -- what was emitted before the refused call was handed over, and was valid
      rcases List.mem_append.mp emitted with earlier | here
      · obtain ⟨n, -, same⟩ := faithful u earlier
        exact absurd negative same.not_negative
      · exact ⟨front, call, back, done, heap, called, split, reached, unmade, place, more,
          (List.mem_filter.mp here).1⟩

/-- What is released during a run fits a word with a sign, so the guest hears of it. -/
theorem releases_fit (load : source.load o = .ok (g, m)) (palette : Palette) (machine : Machine)
    (calls : List Call) {thread : ThreadId} {address : UInt32} {reply : Except HostError Unit}
    (released : .free thread address reply
      ∈ exchanges (run (g.host o).recorded palette (.start machine) calls).2.events) :
    address ≤ wordLimit := by
  have inside : address < o.capacity :=
    run_releases_inside (g.host o) palette machine calls thread address reply released
  exact UInt32.le_of_lt (UInt32.lt_of_lt_of_le inside (capacity_of_load load))

/-- A guest does not hear of an allocation that is too large for a word with a sign. -/
theorem watched_malloc_of_large {body : Int32 → Code Int32} (has : g.malloc = .code body)
    {size : UInt32} (large : wordLimit < size) (w : Watched) :
    (g.watched o).malloc size w = (.ok (-1), w) := by
  simp only [watched, host, Export.uses, has, if_pos large, List.append_nil]

/-- Nor does a guest without an allocation hear of any. -/
theorem watched_malloc_of_missing (lacks : ∀ body, g.malloc ≠ .code body) (size : UInt32)
    (w : Watched) : (g.watched o).malloc size w = (.error (.missing .malloc), w) := by
  cases has : g.malloc with
  | absent | mistyped => simp only [watched, host, Export.uses, has, List.append_nil]
  | code body => exact absurd has (lacks body)

/-- The call is refused, and the guest is told of the thread only. -/
theorem made_of_large (load : source.load o = .ok (g, m)) (heap : Heap Watched) {call : Call}
    {size : UInt32} {color : Option Color} (op : call.op = .malloc size none color)
    (large : wordLimit < size) :
    ∃ e, heap.made (g.watched o) palette call = (.error e, heap.told (g.watched o) call) ∧
      (∀ body, g.malloc = .code body → e = .outOfMemory size (-1) o.capacity) ∧
      ((∀ body, g.malloc ≠ .code body) → e = .missing .malloc) := by
  have positive : size ≠ 0 := by
    rintro rfl
    exact absurd large (by decide)
  by_cases has : ∃ body, g.malloc = .code body
  · obtain ⟨body, has⟩ := has
    have beyond : o.capacity < size := UInt32.lt_of_le_of_lt (capacity_of_load load) large
    have unplaced : Heap.place (g.watched o) size none
        ((g.watched o).setThread call.thread heap.host) = (.error (.outOfMemory size (-1) o.capacity),
          (g.watched o).setThread call.thread heap.host) := by
      simp only [Heap.place, watched_malloc_of_large has large]
      exact Prod.ext (acceptReturned_of_large beyond (-1)) rfl
    refine ⟨_, Heap.made_of_unplaced op positive unplaced, fun _ _ => rfl, fun lacks => ?_⟩
    exact absurd has (lacks body)
  · have lacks : ∀ body, g.malloc ≠ .code body := fun body eq => has ⟨body, eq⟩
    have unplaced : Heap.place (g.watched o) size none
        ((g.watched o).setThread call.thread heap.host) = (.error (.missing .malloc),
          (g.watched o).setThread call.thread heap.host) := by
      simp only [Heap.place, watched_malloc_of_missing lacks]
      rfl
    refine ⟨_, Heap.made_of_unplaced op positive unplaced, fun body eq => ?_, fun _ => rfl⟩
    exact absurd eq (lacks body)

/-- So a run fails at such an allocation, and leaves the guest as the calls before it did. -/
theorem run_of_large (load : source.load o = .ok (g, m)) {front back done : List Call}
    {call : Call} {heap : Heap Watched} {size : UInt32} {color : Option Color}
    (nonempty : palette.colors ≠ []) (sorted : InOrder (front ++ call :: back))
    (reached : Heap.Reaches (g.watched o) palette before front done heap)
    (op : call.op = .malloc size none color) (large : wordLimit < size) :
    ∃ e, (run (g.watched o) palette before (front ++ call :: back)).1 = .error e ∧
      e.callIndex = some front.length ∧
      (∀ body, g.malloc = .code body → e.refusal = .outOfMemory size (-1) o.capacity) ∧
      ((∀ body, g.malloc ≠ .code body) → e.refusal = .missing .malloc) ∧
      (run (g.watched o) palette before (front ++ call :: back)).2
        = ((g.watched o).drainLogs ((g.watched o).setThread call.thread heap.host)).2 := by
  obtain ⟨refusal, made, full, missing⟩ := made_of_large load heap op large
  have unmade : (heap.made (g.watched o) palette call).1 = .error refusal := by rw [made]
  obtain ⟨e, failed, rfl, place, left⟩ := run_of_refused nonempty sorted reached unmade
  rw [made] at left
  exact ⟨e, failed, place, full, missing, left⟩

/-- The words that cross the boundary of a loaded guest keep their meaning in every run, from every
state that calls and drains lead to.  Every annotation that the guest calls for is misused, by its
own memory, or its note is among the emissions.  A note with a negative address, size or end of an
arrow makes the run fail, for a value that is not valid unless the call that asked for it is refused
itself; in a trace every note has the numbers that the guest gave, none of them negative.  What is
released fits a word, so the guest hears of it.  An allocation whose size does not fit a word is
refused without the guest, as out of memory if the guest has an allocation, and no address that a
guest can return makes room for it. -/
theorem boundary_faithful (load : source.load o = .ok (g, m))
    (reaches : (g.watched o).Reaches (g.loaded o m) before) (palette : Palette)
    (calls : List Call) :
    run (g.host o) palette before.machine calls
      = ((run (g.watched o) palette before calls).1,
        (run (g.watched o) palette before calls).2.machine) ∧
    (∃ called, Watched.Called (g.surroundings o) before called
        (run (g.watched o) palette before calls).2 ∧
      ∀ u ∈ called, u.binding.kind?.isSome →
        (∃ m f, u = .of (g.surroundings o) m u.binding ∧
          u.binding.Misuses (g.surroundings o) m f) ∨
        u ∈ Watched.emissions before (run (g.watched o) palette before calls).2) ∧
    (∀ u ∈ Watched.emissions before (run (g.watched o) palette before calls).2,
      u.binding.Negative →
      ∃ e, (run (g.watched o) palette before calls).1 = .error e ∧
        (palette.colors ≠ [] →
          (∃ i, e.refusal = .invalid i) ∨ RefusedInside g o palette before calls e u)) ∧
    (∀ r, (run (g.watched o) palette before calls).1 = .ok r →
      ∃ notes pieces, r.trace.calls
          = notes.map Origin.setup.noteCall ++ pieces.flatMap Piece.calls ∧
        List.Forall₂ (fun call p => call.Framed p.call) calls pieces ∧
        notes ++ pieces.flatMap Piece.notes
          = (Watched.emissions before (run (g.watched o) palette before calls).2).filterMap
              Use.note? ∧
        ∀ u ∈ Watched.emissions before (run (g.watched o) palette before calls).2,
          ∃ n, u.note? = some n ∧ n.Faithful u.binding) ∧
    (∀ thread address reply, .free thread address reply
        ∈ exchanges (run (g.host o).recorded palette (.start before.machine) calls).2.events →
      address ≤ wordLimit ∧ ∀ body machine, g.free = .code body →
        (g.host o).free address machine
          = enter (g.surroundings o) (body address.toInt32) machine) ∧
    ∀ front call back done heap size color, palette.colors ≠ [] → InOrder calls →
      calls = front ++ call :: back →
      Heap.Reaches (g.watched o) palette before front done heap →
      call.op = .malloc size none color → wordLimit < size →
      (∀ returned, acceptReturned size returned o.capacity
        = .error (.outOfMemory size returned o.capacity)) ∧
      ∃ e, (run (g.watched o) palette before calls).1 = .error e ∧
        e.callIndex = some front.length ∧
        (∀ body, g.malloc = .code body → e.refusal = .outOfMemory size (-1) o.capacity) ∧
        ((∀ body, g.malloc ≠ .code body) → e.refusal = .missing .malloc) ∧
        (run (g.watched o) palette before calls).2
          = ((g.watched o).drainLogs ((g.watched o).setThread call.thread heap.host)).2 := by
  refine ⟨run_seen (seenAs_watched g o) before calls, ?annotated, ?negative, ?faithful, ?releases,
    ?large⟩
  case annotated =>
    obtain ⟨called, since⟩ := run_called g o before palette calls
    have balanced := (Watched.balanced_loaded load).reaches reaches
    exact ⟨called, since, fun _ member annotates =>
      since.misused_or_emitted balanced member annotates⟩
  case negative =>
    intro u emitted negative
    exact run_error_of_negative load reaches emitted negative
  case faithful =>
    intro r ok
    exact run_ok_faithful load reaches ok
  case releases =>
    intro thread address reply released
    have fits := releases_fit load palette before.machine calls released
    refine ⟨fits, fun body machine has => ?_⟩
    simp only [host, has, if_neg (UInt32.not_lt.mpr fits)]
  case large =>
    rintro front call back done heap size color nonempty sorted rfl reached op large
    have beyond : o.capacity < size := UInt32.lt_of_le_of_lt (capacity_of_load load) large
    exact ⟨acceptReturned_of_large beyond, run_of_large load nonempty sorted reached op large⟩

end Runs

/-- A guest that draws an arrow to byte 16, less the size, and then hands out byte 0. -/
def pointing : Guest where
  malloc := .code fun size => do
    Code.tell (.annotatePointer 0 (16 - size))
    pure 0

/-- The guest when it is loaded. -/
def pointingLoaded : Watched := pointing.loaded {} { memory := .blank 1 }

/-- The request for a block. -/
def asking (size : UInt32) : Call := ⟨.malloc size none none, none, none, 0, .zero, .zero⟩

/-- What the guest reports of a block of 20 bytes. -/
def pointingBack : Use :=
  .of (pointing.surroundings {}) { memory := .blank 1 } (.annotatePointer 0 (-4))

/-- An arrow to a byte is in the trace, one to a negative byte makes the run fail, and a block of more
bytes than a word counts is refused. -/
theorem boundary_faithful_of_pointing :
    (ModuleSource.guest pointing).load {} = .ok (pointing, pointingLoaded.machine) ∧
    (∀ u ∈ Watched.emissions pointingLoaded
      (run (pointing.watched {}) .default pointingLoaded [asking 4]).2, ¬u.binding.Negative) ∧
    (∃ e, (run (pointing.watched {}) .default pointingLoaded [asking 20]).1 = .error e) ∧
    ∃ e, (run (pointing.watched {}) .default pointingLoaded [asking 2147483648]).1 = .error e ∧
      e.refusal = .outOfMemory 2147483648 (-1) 256 := by
  have load : (ModuleSource.guest pointing).load {} = .ok (pointing, pointingLoaded.machine) := rfl
  have start : (pointing.watched {}).Reaches pointingLoaded pointingLoaded := .refl
  refine ⟨load, ?fits, ?negative, ?large⟩
  case fits =>
    obtain ⟨r, ok⟩ : ∃ r, (run (pointing.watched {}) .default pointingLoaded [asking 4]).1 = .ok r :=
      ⟨_, rfl⟩
    obtain ⟨-, -, -, faithful, -⟩ := boundary_faithful load start .default [asking 4]
    obtain ⟨-, -, -, -, -, same⟩ := faithful r ok
    intro u emitted
    obtain ⟨n, -, given⟩ := same u emitted
    exact given.not_negative
  case negative =>
    obtain ⟨-, -, negative, -⟩ := boundary_faithful load start .default [asking 20]
    have emitted : Watched.emissions pointingLoaded
        (run (pointing.watched {}) .default pointingLoaded [asking 20]).2 = [pointingBack] := rfl
    have back : pointingBack.binding.Negative :=
      ⟨-4, List.mem_cons_of_mem 0 List.mem_cons_self, by decide⟩
    obtain ⟨e, failed, -⟩ := negative pointingBack (emitted ▸ List.mem_cons_self) back
    exact ⟨e, failed⟩
  case large =>
    obtain ⟨-, -, -, -, -, large⟩ := boundary_faithful load start .default [asking 2147483648]
    have sorted : InOrder [asking 2147483648] :=
      inOrder_of_firstUnsortedFrom (show firstUnsorted _ = none by decide)
    have reached : Heap.Reaches (pointing.watched {}) .default pointingLoaded [] [] _ :=
      ⟨[], [], rfl, rfl, rfl, rfl⟩
    obtain ⟨-, e, failed, -, full, -⟩ := large [] (asking 2147483648) [] [] _ 2147483648 none
      (by decide) sorted rfl reached rfl (by decide)
    exact ⟨e, failed, full _ rfl⟩

/-- A guest without an allocation is not out of memory, however many bytes it is asked for. -/
theorem large_malloc_without_code :
    (ModuleSource.guest {}).load {} = .ok ({}, { memory := .blank 1 }) ∧
    wordLimit < 2147483648 ∧
    ∃ e, (run (Guest.host {} {}) .default { memory := .blank 1 } [asking 2147483648]).1 = .error e ∧
      e.refusal = .missing .malloc ∧
      ∀ size returned capacity, e.refusal ≠ .outOfMemory size returned capacity := by
  refine ⟨rfl, by decide, _, rfl, rfl, ?_⟩
  intro size returned capacity absurd
  cases absurd

end Guest

end Heapscope
