import Heapscope.Proofs.Guest.Delivery
import Heapscope.Proofs.Run.Aftermath

/-!
# What a run delivers of a guest

A run collects what a guest reports: what is queued when it begins, and what is queued behind each
call that is not refused.  Up to every call of a run this is everything that was reported, so nothing
is queued in between, and the annotations of the trace are the reports in their order.

* `Guest.Watched.emissions` -- the bindings whose notes a run has to do with;
* `Guest.Watched.Called`, `Guest.run_called` -- the bindings that a run calls;
* `Guest.Watched.Called.misused_or_emitted` -- of these every annotation is misused or emitted;
* `Guest.Delivered`, `Guest.reaches_delivered` -- what has been delivered up to a call of a run;
* `Guest.balanced_run` -- a run, however it ends, loses nothing.
-/

namespace Heapscope

namespace Guest

variable {g : Guest} {o : GuestOptions} {palette : Palette}

/-! ## Reports -/

/-- The bindings that added notes which had not been handed over before: those whose notes were
still queued, and those called since. -/
def Watched.emissions (before after : Watched) : List Use :=
  (after.uses.filter fun u => u.note?.isSome).drop before.notes.length

theorem filterMap_drop_filter {α β : Type} (f : α → Option β) (l : List α) (k : Nat) :
    ((l.filter fun a => (f a).isSome).drop k).filterMap f = (l.filterMap f).drop k := by
  induction l generalizing k with
  | nil => simp
  | cons a rest ih =>
    cases found : f a with
    | none => simp [found, ih]
    | some b =>
      cases k with
      | zero => simpa [found] using ih 0
      | succ k => simp [found, ih]

namespace Watched

variable {before after : Watched}

/-- The notes of these bindings were handed over since, or are still queued. -/
theorem emissions_notes (balanced : after.Balanced) {delivered : List Note}
    (handed : after.notes = before.notes ++ delivered) :
    (emissions before after).filterMap Use.note? = delivered ++ after.machine.notes := by
  unfold emissions
  rw [filterMap_drop_filter, ← balanced.notes, handed, List.append_assoc, List.drop_left]

/-- When more bindings are called, those of them that add notes come last. -/
theorem emissions_call {last : Watched} (balanced : after.Balanced) {delivered : List Note}
    (handed : after.notes = before.notes ++ delivered) {called : List Use}
    (more : last.uses = after.uses ++ called) :
    emissions before last
      = emissions before after ++ called.filter fun u => u.note?.isSome := by
  have enough : before.notes.length ≤ (after.uses.filter fun u => u.note?.isSome).length := by
    rw [← List.countP_eq_length_filter, ← List.length_filterMap_eq_countP, ← balanced.notes, handed,
      List.append_assoc, List.length_append]
    exact Nat.le_add_right _ _
  unfold emissions
  rw [more, List.filter_append, List.drop_append_of_le_length enough]

theorem exists_note_of_mem {u : Use} (emitted : u ∈ emissions before after) :
    ∃ n, u.note? = some n := by
  obtain ⟨-, added⟩ := List.mem_filter.mp (List.mem_of_mem_drop emitted)
  exact Option.isSome_iff_exists.mp added

/-- Bindings that were called between two states, each on a machine in given surroundings. -/
structure Called (s : Surroundings) (before : Watched) (called : List Use) (after : Watched) :
    Prop where
  uses : after.uses = before.uses ++ called
  made : ∀ u ∈ called, ∃ m, u = .of s m u.binding

namespace Called

variable {s : Surroundings} {called : List Use}

/-- A function that is called adds the bindings that it calls. -/
theorem call {α : Type} (since : Called s before called after) (f : Export (Int32 → Code α))
    (argument : UInt32) (m : Machine) :
    Called s before (called ++ f.uses s argument after.machine)
      { after with machine := m, uses := after.uses ++ f.uses s argument after.machine } where
  uses := by rw [since.uses, List.append_assoc]
  made := by
    intro u member
    rcases List.mem_append.mp member with earlier | here
    · exact since.made u earlier
    · unfold Export.uses at here
      split at here
      · split at here
        · cases here
        · exact Code.exists_of_mem_uses here
      · cases here
      · cases here

/-- A binding that annotates is misused, by the memory of the machine that it is called on, or its
note is among the emissions. -/
theorem misused_or_emitted (since : Called s before called after) (balanced : before.Balanced)
    {u : Use} (member : u ∈ called) (annotates : u.binding.kind?.isSome) :
    (∃ m f, u = .of s m u.binding ∧ u.binding.Misuses s m f) ∨ u ∈ emissions before after := by
  obtain ⟨m, use⟩ := since.made u member
  rcases u.binding.asks_or_misuses s m with ⟨note, entry, asks⟩ | ⟨f, misuses⟩
  · right
    have outcome : u.outcome = .ok (note, entry) := by
      rw [use]
      exact Binding.outcome_of_asks asks
    have noted : u.note?.isSome := by
      rw [← asks.isSome_note] at annotates
      unfold Use.note?
      rw [outcome]
      exact annotates
    rw [emissions_call balanced (List.append_nil _).symm since.uses]
    exact List.mem_append_right _ (List.mem_filter.mpr ⟨member, noted⟩)
  · exact .inl ⟨m, f, use, misuses⟩

end Called

end Watched

/-- What has been delivered from one state to another, when calls of a run are made: the annotations
of the setup, those that follow each call, and nothing besides. -/
structure Delivered (o : GuestOptions) (before after : Watched) (calls : List Call)
    (notes : List Note) (pieces : List Piece) : Prop where
  framed : List.Forall₂ (fun call p => call.Framed p.call) calls pieces
  handed : after.notes = before.notes ++ (notes ++ pieces.flatMap Piece.notes)
  drained : after.machine.notes = []
  valid : ∀ n ∈ notes ++ pieces.flatMap Piece.notes, n.validate o.capacity = .ok ()

namespace Delivered

variable {before after : Watched} {calls : List Call} {notes : List Note} {pieces : List Piece}

/-- What is delivered between three states is delivered from the first to the last. -/
theorem trans {between : Watched} {calls' : List Call} {pieces' : List Piece}
    (first : Delivered o before between calls notes pieces)
    (second : Delivered o between after calls' [] pieces') :
    Delivered o before after (calls ++ calls') notes (pieces ++ pieces') := by
  refine ⟨List.rel_append first.framed second.framed, ?_, second.drained, ?_⟩
  · rw [second.handed, first.handed]
    simp
  · intro n handed
    rw [List.flatMap_append, ← List.append_assoc] at handed
    rcases List.mem_append.mp handed with earlier | later
    · exact first.valid n earlier
    · exact second.valid n later

end Delivered

/-! ## The calls of a run -/

variable {heap : Heap Watched}

/-- A call that is made hands over nothing, and adds the bindings that it calls. -/
theorem made_watched (g : Guest) (o : GuestOptions) (palette : Palette) (heap : Heap Watched)
    (call : Call) : (heap.made (g.watched o) palette call).2.host.notes = heap.host.notes ∧
      ∃ called, (heap.made (g.watched o) palette call).2.host.uses = heap.host.uses ++ called := by
  have asked : Heap.Asked (g.watched o) ((g.watched o).setThread call.thread heap.host)
      (heap.made (g.watched o) palette call).2.host := heap.made_asked call
  generalize (heap.made (g.watched o) palette call).2.host = after at asked ⊢
  cases asked with
  | nothing => exact ⟨rfl, [], (List.append_nil _).symm⟩
  | malloc size => exact ⟨rfl, _, rfl⟩
  | free address => exact ⟨rfl, _, rfl⟩

/-- A step that is not refused delivers what is queued when its call has been made. -/
theorem step_delivered {index : Nat} {call : Call} {made : List Call}
    (nonempty : palette.colors ≠ [])
    (ok : (heap.step (g.watched o) palette index call).result = .ok made) :
    ∃ piece : Piece, made = piece.calls ∧
      Delivered o heap.host (heap.step (g.watched o) palette index call).heap.host [call] []
        [piece] := by
  obtain ⟨done, enriched, calls, -⟩ := Heap.step_piece nonempty ok
  obtain ⟨handed, -⟩ := made_watched g o palette heap call
  rw [Heap.step_eq] at ok ⊢
  obtain ⟨front, applied, valid, -⟩ := Heap.collect_ok ok
  have piece_notes : [Piece.mk done (Heap.drained (g.watched o) palette heap call)].flatMap
      Piece.notes = Heap.queued (g.watched o) (heap.made (g.watched o) palette call).2 :=
    List.append_nil _
  refine ⟨_, calls, .cons enriched.framed .nil, ?_, ?_, ?_⟩
  · rw [applied, Heap.collect_host, piece_notes, ← handed]
    rfl
  · rw [applied, Heap.collect_host]
    rfl
  · rw [piece_notes]
    exact valid

/-- Calls that are not refused deliver what each of them leaves queued. -/
theorem steps_delivered {index : Nat} {calls made : List Call} (nonempty : palette.colors ≠ [])
    (drained : heap.host.machine.notes = [])
    (ok : (heap.steps (g.watched o) palette index calls).result = .ok made) :
    ∃ pieces : List Piece, made = pieces.flatMap Piece.calls ∧
      Delivered o heap.host (heap.steps (g.watched o) palette index calls).heap.host calls []
        pieces := by
  induction calls generalizing heap index made with
  | nil =>
    cases ok
    exact ⟨[], rfl, .nil, (List.append_nil _).symm, drained, fun n absurd => by cases absurd⟩
  | cons call rest ih =>
    cases first : (heap.step (g.watched o) palette index call).result with
    | error e =>
      rw [Heap.steps_cons_of_error first] at ok
      cases ok
    | ok calls =>
      obtain ⟨heap_eq, result_eq⟩ := Heap.steps_cons_of_ok rest first
      rw [result_eq] at ok
      obtain ⟨tail, more, rfl⟩ := exists_of_map_ok ok
      obtain ⟨piece, rfl, here⟩ := step_delivered nonempty first
      obtain ⟨pieces, rfl, there⟩ := ih here.drained more
      rw [heap_eq]
      exact ⟨piece :: pieces, rfl, here.trans there⟩

/-- So it is up to every call of a run. -/
theorem reaches_delivered {before : Watched} {calls done : List Call}
    (nonempty : palette.colors ≠ [])
    (reaches : Heap.Reaches (g.watched o) palette before calls done heap) :
    ∃ notes pieces, done = notes.map Origin.setup.noteCall ++ pieces.flatMap Piece.calls ∧
      Delivered o before heap.host calls notes pieces := by
  obtain ⟨notes, made, noted, stepped, rfl, rfl⟩ := reaches
  obtain ⟨front, applied, valid, -⟩ := Heap.collect_ok noted
  obtain ⟨rfl, -⟩ := setup_notes noted
  have setup : Delivered o before (Heap.setup (g.watched o) before).heap.host []
      (Heap.queued (g.watched o) (Heap.start (g.watched o) before)) [] := by
    unfold Heap.setup
    rw [Heap.collect_host]
    refine ⟨.nil, ?_, rfl, ?_⟩
    · rw [List.flatMap_nil, List.append_nil]
      rfl
    · rw [List.flatMap_nil, List.append_nil]
      exact valid
  obtain ⟨pieces, rfl, rest⟩ := steps_delivered nonempty setup.drained stepped
  exact ⟨_, pieces, rfl, setup.trans rest⟩

/-! ## Whole runs -/

/-- Any calls and drains of a loaded guest, and any run, keep the balance. -/
theorem balanced_run {source : ModuleSource} {m : Machine} {before : Watched}
    (load : source.load o = .ok (g, m)) (reaches : (g.watched o).Reaches (g.loaded o m) before)
    (palette : Palette) (calls : List Call) : (run (g.watched o) palette before calls).2.Balanced := by
  have keeps : (g.watched o).Keeps Watched.Balanced :=
    { setThread := fun here thread => here.reaches (Host.Reaches.refl.setThread thread)
      malloc := fun here size => here.reaches (Host.Reaches.refl.malloc size)
      free := fun here address _ => here.reaches (Host.Reaches.refl.free address)
      drainNotes := fun here => here.reaches Host.Reaches.refl.drainNotes
      drainLogs := fun here => here.reaches Host.Reaches.refl.drainLogs }
  exact run_keeps keeps ((Watched.balanced_loaded load).reaches reaches) palette calls

/-- What a run calls, it calls in the surroundings of its guest. -/
theorem run_called (g : Guest) (o : GuestOptions) (before : Watched) (palette : Palette)
    (calls : List Call) :
    ∃ called, Watched.Called (g.surroundings o) before called
      (run (g.watched o) palette before calls).2 := by
  have keeps : (g.watched o).Keeps fun w =>
      ∃ called, Watched.Called (g.surroundings o) before called w :=
    { setThread := fun ⟨called, here⟩ _ => ⟨called, here.uses, here.made⟩
      malloc := fun ⟨_, here⟩ size => ⟨_, here.call g.malloc size _⟩
      free := fun ⟨_, here⟩ address _ => ⟨_, here.call g.free address _⟩
      drainNotes := fun ⟨called, here⟩ => ⟨called, here.uses, here.made⟩
      drainLogs := fun ⟨called, here⟩ => ⟨called, here.uses, here.made⟩ }
  have nothing : Watched.Called (g.surroundings o) before [] before :=
    ⟨(List.append_nil _).symm, fun u absurd => by cases absurd⟩
  exact run_keeps keeps ⟨[], nothing⟩ palette calls

end Guest

end Heapscope
