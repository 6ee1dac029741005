import Heapscope.Proofs.Guest.Asking
import Heapscope.Proofs.Host.Views
import Heapscope.Proofs.Run.Silence

/-!
# What a guest reports is delivered once

A loaded guest can be watched: every binding that it calls is put on record, and so is everything
that is handed over when a queue is drained.  However calls and drains follow each other, what was
handed over and what is still queued are together what the guest asked for, in this order.  Each call
comes to what its own bindings and its own result say.  What a binding asks for, and whether it is
misused, is read off the memory of the guest.

* `Guest.watched` -- a guest with the record of what it called and of what was handed over;
* `Guest.Watched.Balanced` -- nothing is lost, and nothing comes twice;
* `Guest.delivered_once` -- so it is after any calls and drains of a loaded guest.
-/

namespace Heapscope

/-- The bindings that a function calls when it is called with a number. -/
def Export.uses {α : Type} (s : Surroundings) (f : Export (Int32 → Code α)) (argument : UInt32)
    (m : Machine) : List Use :=
  match f with
  | .code body =>
    if Guest.wordLimit < argument then [] else (body argument.toInt32).uses s m.bare
  | .absent | .mistyped => []

/-- The machine when a function has been called with a number; what is too large is not handed
over. -/
def Export.after {α : Type} (s : Surroundings) (f : Export (Int32 → Code α)) (argument : UInt32)
    (m : Machine) : Machine :=
  match f with
  | .code body =>
    if Guest.wordLimit < argument then m else (Guest.enter s (body argument.toInt32) m).2
  | .absent | .mistyped => m

namespace Guest

/-- A guest, the bindings that it has called, and what was handed over. -/
structure Watched where
  machine : Machine
  /-- Every binding that was called since the guest was loaded, in order. -/
  uses : List Use
  /-- The notes that were drained, in order. -/
  notes : List Note
  /-- The messages that were drained, in order. -/
  logs : List LogEntry

/-- A guest that is watched. -/
def watched (g : Guest) (o : GuestOptions) : Host Watched where
  capacity := (g.host o).capacity
  setThread thread w := { w with machine := (g.host o).setThread thread w.machine }
  malloc size w :=
    let (reply, machine) := (g.host o).malloc size w.machine
    let uses := g.malloc.uses (g.surroundings o) size w.machine
    (reply, { w with machine, uses := w.uses ++ uses })
  free address w :=
    let (reply, machine) := (g.host o).free address w.machine
    let uses := g.free.uses (g.surroundings o) address w.machine
    (reply, { w with machine, uses := w.uses ++ uses })
  drainNotes w :=
    let (notes, machine) := (g.host o).drainNotes w.machine
    (notes, { w with machine, notes := w.notes ++ notes })
  drainLogs w :=
    let (logs, machine) := (g.host o).drainLogs w.machine
    (logs, { w with machine, logs := w.logs ++ logs })

/-- The bindings that a guest calls while it is loaded. -/
def startUses (g : Guest) (o : GuestOptions) : List Use :=
  match g.memory? with
  | none => []
  | some memory => g.start.uses (g.surroundings o) { memory }

/-- A guest that was just loaded: nothing has been handed over. -/
def loaded (g : Guest) (o : GuestOptions) (m : Machine) : Watched := ⟨m, g.startUses o, [], []⟩

/-- Without the record a guest that is watched is the one that is not. -/
theorem seenAs_watched (g : Guest) (o : GuestOptions) :
    (g.watched o).SeenAs Watched.machine (g.host o) where
  capacity := rfl
  setThread _ _ := rfl
  malloc _ _ := rfl
  free _ _ := rfl
  drainNotes _ := rfl
  drainLogs _ := rfl

/-! ## One call -/

variable {g : Guest} {o : GuestOptions}

/-- An allocation that a guest is asked for comes to what the call itself does. -/
theorem malloc_verdict {body : Int32 → Code Int32} (has : g.malloc = .code body) {size : UInt32}
    (fits : size ≤ wordLimit) (m : Machine) :
    ((g.host o).malloc size m).1 = (verdict ((body size.toInt32).uses (g.surroundings o) m.bare)
      ((body size.toInt32).run (g.surroundings o) m.bare).1).map Int32.toInt64 := by
  rw [← enter_verdict]
  simp only [host, has, if_neg (UInt32.not_lt.mpr fits)]

/-- And so does a release. -/
theorem free_verdict {body : Int32 → Code Unit} (has : g.free = .code body) {address : UInt32}
    (fits : address ≤ wordLimit) (m : Machine) :
    ((g.host o).free address m).1 = verdict ((body address.toInt32).uses (g.surroundings o) m.bare)
      ((body address.toInt32).run (g.surroundings o) m.bare).1 := by
  rw [← enter_verdict]
  simp only [host, has, if_neg (UInt32.not_lt.mpr fits)]

/-- A function that is called adds to the queues what its bindings ask for. -/
theorem after_queues {α : Type} (s : Surroundings) (f : Export (Int32 → Code α))
    (argument : UInt32) (m : Machine) :
    (f.after s argument m).notes = m.notes ++ (f.uses s argument m).filterMap Use.note? ∧
      (f.after s argument m).logs = m.logs ++ (f.uses s argument m).filterMap Use.log? := by
  unfold Export.after Export.uses
  cases f with
  | absent | mistyped => simp
  | code body =>
    by_cases large : wordLimit < argument
    · simp [large]
    · simpa only [if_neg large] using enter_queues s (body argument.toInt32) m

theorem malloc_after (g : Guest) (o : GuestOptions) (size : UInt32) (m : Machine) :
    ((g.host o).malloc size m).2 = g.malloc.after (g.surroundings o) size m := by
  unfold host Export.after
  cases g.malloc with
  | absent | mistyped => rfl
  | code body =>
    simp only
    split <;> rfl

theorem free_after (g : Guest) (o : GuestOptions) (address : UInt32) (m : Machine) :
    ((g.host o).free address m).2 = g.free.after (g.surroundings o) address m := by
  unfold host Export.after
  cases g.free with
  | absent | mistyped => rfl
  | code body =>
    simp only
    split <;> rfl

/-! ## Loading -/

/-- A guest that is loaded has valid options and was set up. -/
theorem load_ok {source : ModuleSource} {m : Machine} (load : source.load o = .ok (g, m)) :
    o.validate = .ok () ∧ g.boot o = .ok m := by
  obtain ⟨_, checked, load⟩ := exists_of_bind_ok load
  have valid : o.validate = .ok () := by
    cases found : o.validate with
    | error e =>
      rw [found] at checked
      cases checked
    | ok => rfl
  cases source with
  | unreadable | illTyped | unlinkable => cases load
  | guest g' =>
    obtain ⟨m', load, made⟩ := exists_of_bind_ok load
    cases made
    refine ⟨valid, ?_⟩
    unfold Guest.load at load
    by_cases huge : LinearMemory.pageLimit < g.pages
    · rw [if_pos huge] at load
      cases load
    · rw [if_neg huge] at load
      cases booted : g.boot o with
      | error e =>
        rw [booted] at load
        cases load
      | ok m'' =>
        rw [booted] at load
        cases typed : g.wellTyped with
        | true =>
          rw [typed] at load
          cases load
          rfl
        | false =>
          rw [typed] at load
          cases load

/-- A guest that is set up has run its first code, and misused nothing. -/
theorem boot_ok {m : Machine} (booted : g.boot o = .ok m) :
    ∃ memory, g.memory? = some memory ∧
      g.start.run (g.surroundings o) { memory } = (.ok (), m) ∧ m.fault = none := by
  unfold boot at booted
  split at booted
  · cases booted
  · cases start : g.memory? with
    | none =>
      rw [start] at booted
      cases booted
    | some memory =>
      simp only [start] at booted
      split at booted
      · cases booted
      · rename_i m' ran
        cases kept : m'.fault with
        | some f =>
          rw [kept] at booted
          cases booted
        | none =>
          rw [kept] at booted
          cases booted
          exact ⟨memory, rfl, ran, kept⟩

/-! ## Any calls and drains -/

namespace Watched

/-- What was handed over and what is still queued are what the guest asked for. -/
structure Balanced (w : Watched) : Prop where
  notes : w.notes ++ w.machine.notes = w.uses.filterMap Use.note?
  logs : w.logs ++ w.machine.logs = w.uses.filterMap Use.log?

/-- A guest that is loaded has queued what it asked for, and nothing has been handed over. -/
theorem balanced_loaded {source : ModuleSource} {m : Machine} (load : source.load o = .ok (g, m)) :
    (g.loaded o m).Balanced := by
  obtain ⟨memory, start, ran, -⟩ := boot_ok (load_ok load).2
  obtain ⟨notes, logs, -⟩ := g.start.run_queues (g.surroundings o) { memory }
  rw [ran] at notes logs
  have called : g.startUses o = g.start.uses (g.surroundings o) { memory } := by
    rw [startUses, start]
  constructor
  · show [] ++ m.notes = _
    rw [notes, loaded, called]
    rfl
  · show [] ++ m.logs = _
    rw [logs, loaded, called]
    rfl

/-- A function that is called adds to both sides. -/
theorem Balanced.call {α : Type} {w : Watched} {m : Machine} (s : Surroundings)
    (f : Export (Int32 → Code α)) (argument : UInt32) (balanced : w.Balanced)
    (after : m = f.after s argument w.machine) :
    Balanced { w with machine := m, uses := w.uses ++ f.uses s argument w.machine } := by
  obtain ⟨notes, logs⟩ := after_queues s f argument w.machine
  subst after
  constructor
  · show w.notes ++ (f.after s argument w.machine).notes = _
    rw [notes, ← List.append_assoc, balanced.notes]
    exact List.filterMap_append.symm
  · show w.logs ++ (f.after s argument w.machine).logs = _
    rw [logs, ← List.append_assoc, balanced.logs]
    exact List.filterMap_append.symm

/-- Calls and drains keep the balance. -/
theorem Balanced.reaches {w w' : Watched} (balanced : w.Balanced)
    (reaches : (g.watched o).Reaches w w') : w'.Balanced := by
  induction reaches with
  | refl => exact balanced
  | setThread thread _ ih => exact ⟨ih.notes, ih.logs⟩
  | @malloc s size _ ih => exact ih.call _ g.malloc size (malloc_after g o size s.machine)
  | @free s address _ ih => exact ih.call _ g.free address (free_after g o address s.machine)
  | @drainNotes s _ ih =>
    refine ⟨?_, ih.logs⟩
    show (s.notes ++ s.machine.notes) ++ [] = _
    rw [List.append_nil]
    exact ih.notes
  | @drainLogs s _ ih =>
    refine ⟨ih.notes, ?_⟩
    show (s.logs ++ s.machine.logs) ++ [] = _
    rw [List.append_nil]
    exact ih.logs

end Watched

/-- However a loaded guest is told of threads, called and drained, watching changes nothing; what
was handed over followed by what is still queued is what its bindings asked for, in the order in
which they were called; an allocation and a release come to the first misuse of their own bindings,
else to their own trap, else to their own result.  What is put on record of a binding is what it asks
for, or how it is misused, by the memory of the guest at that moment; a binding that is not misused
queues just what it asks for, one that is misused nothing. -/
theorem delivered_once {source : ModuleSource} {m : Machine} {w : Watched}
    (load : source.load o = .ok (g, m)) (reaches : (g.watched o).Reaches (g.loaded o m) w) :
    (g.watched o).SeenAs Watched.machine (g.host o) ∧
    (w.notes ++ w.machine.notes = w.uses.filterMap Use.note? ∧
      w.logs ++ w.machine.logs = w.uses.filterMap Use.log?) ∧
    (∀ body size, g.malloc = .code body → size ≤ wordLimit →
      ((g.watched o).malloc size w).1 =
        (verdict ((body size.toInt32).uses (g.surroundings o) w.machine.bare)
          ((body size.toInt32).run (g.surroundings o) w.machine.bare).1).map Int32.toInt64) ∧
    (∀ body address, g.free = .code body → address ≤ wordLimit →
      ((g.watched o).free address w).1 =
        verdict ((body address.toInt32).uses (g.surroundings o) w.machine.bare)
          ((body address.toInt32).run (g.surroundings o) w.machine.bare).1) ∧
    (∀ (s : Surroundings) (m : Machine) (b : Binding),
      (∀ note entry, (Use.of s m b).outcome = .ok (note, entry) ↔ b.Asks s m note entry) ∧
      ∀ f, (Use.of s m b).outcome = .error f ↔ b.Misuses s m f) ∧
    (∀ (s : Surroundings) (m : Machine) (b : Binding) (note : Option Note)
      (entry : Option LogEntry), b.Asks s m note entry → ∃ reply memory,
        b.perform s m = (reply, { m with
          notes := m.notes ++ note.toList, logs := m.logs ++ entry.toList, memory })) ∧
    ∀ (s : Surroundings) (m : Machine) (b : Binding) (f : Misuse), b.Misuses s m f →
      b.perform s m = (-1, m.misused f) ∧ (m.misused f).notes = m.notes ∧
        (m.misused f).logs = m.logs := by
  obtain ⟨notes, logs⟩ := (Watched.balanced_loaded load).reaches reaches
  refine ⟨seenAs_watched g o, ⟨notes, logs⟩, ?_, ?_, ?_, ?_, ?_⟩
  · intro body size has fits
    exact malloc_verdict has fits w.machine
  · intro body address has fits
    exact free_verdict has fits w.machine
  · intro s m b
    exact ⟨fun _ _ => Binding.outcome_ok_iff, fun _ => Binding.outcome_error_iff⟩
  · intro s m b note entry asks
    exact Binding.perform_of_ok (Binding.outcome_of_asks asks)
  · intro s m b f misuses
    exact ⟨Binding.perform_of_misuse (Binding.outcome_of_misuses misuses), rfl, rfl⟩

/-- A guest that reports while it is loaded, and tells and reports before it traps.  In between it
logs a span that ends behind its memory and asks for a color that is none.  When it releases a block
it logs the byte at the address. -/
def clumsy : Guest where
  data := [(16, bytesOfText "größe"), (32, [255])]
  start := .tell (.remove .range 7)
  malloc := .code fun size => do
    Code.tell (.log .info 16 7)
    Code.tell (.log .warn 65534 4)
    Code.tell (.annotateColor size 1 (-1))
    Code.tell (.annotatePointer size 2)
    .trap .unreachable
  free := .code fun address => do
    Code.tell (.remove .color address)
    Code.tell (.log .error address 1)

/-- The guest when it is loaded. -/
def clumsyLoaded : Watched :=
  clumsy.loaded {} { memory := clumsy.memory?.getD (.blank 1), notes := [.bare (.remove .range) 7] }

/-- The guest after an allocation, a drain and two releases. -/
def clumsyCalled : Watched :=
  let allocated := ((clumsy.watched {}).malloc 3 clumsyLoaded).2
  let drained := ((clumsy.watched {}).drainNotes allocated).2
  let released := ((clumsy.watched {}).free 16 drained).2
  ((clumsy.watched {}).free 32 released).2

/-- Misuses and traps stay with the calls that they happen in, and what was told and reported beside
them is delivered. -/
theorem delivered_once_of_clumsy :
    (ModuleSource.guest clumsy).load {} = .ok (clumsy, clumsyLoaded.machine) ∧
    (clumsy.watched {}).Reaches clumsyLoaded clumsyCalled ∧
    ((clumsy.watched {}).malloc 5 clumsyCalled).1
      = .error (.fault "logWarn: cannot read 4 bytes at 65534 from guest memory") ∧
    ((clumsy.watched {}).free 32 clumsyCalled).1
      = .error (.fault "logError: string at 32 is not valid UTF-8") ∧
    ((clumsy.watched {}).free 16 clumsyCalled).1 = .ok () ∧
    clumsyCalled.notes ++ clumsyCalled.machine.notes =
      [.bare (.remove .range) 7, { Note.bare (.add .pointer) 3 with target := some 2 },
        .bare (.remove .color) 16, .bare (.remove .color) 32] ∧
    clumsyCalled.logs ++ clumsyCalled.machine.logs = [⟨.info, "größe"⟩, ⟨.error, "g"⟩] ∧
    (Binding.log .info 16 7).Asks (clumsy.surroundings {}) clumsyCalled.machine none
      (some ⟨.info, "größe"⟩) ∧
    (Binding.log .warn 65534 4).Misuses (clumsy.surroundings {}) clumsyCalled.machine
      (.unreadable "logWarn" 65534 4) := by
  have load : (ModuleSource.guest clumsy).load {} = .ok (clumsy, clumsyLoaded.machine) := rfl
  have reaches : (clumsy.watched {}).Reaches clumsyLoaded clumsyCalled :=
    (((Host.Reaches.refl.malloc 3).drainNotes).free 16).free 32
  obtain ⟨-, ⟨notes, logs⟩, malloc, free, told, -⟩ := delivered_once load reaches
  refine ⟨load, reaches, ?_, ?_, ?_, ?_, ?_, ?_, ?_⟩
  · rw [malloc _ 5 rfl (by decide)]
    rfl
  · rw [free _ 32 rfl (by decide)]
    rfl
  · rw [free _ 16 rfl (by decide)]
    rfl
  · rw [notes]
    rfl
  · rw [logs]
    rfl
  · exact ((told _ _ _).1 _ _).mp rfl
  · exact ((told _ _ _).2 _).mp rfl

end Guest

end Heapscope
