import Heapscope.Guest.Basic
import Heapscope.Proofs.Except

/-!
# What guest code asks for

Code calls bindings, one after the other, and the answers select how it goes on.  Whatever it does
between the calls, a run of it adds to the queues exactly what the bindings ask for that are not
misused, and keeps the first misuse.  What the code does itself depends on its memory, its variables
and its thread, and on nothing that is queued or was misused before.

* `Use`, `Code.uses` -- a binding that is called, and all that code calls;
* `Binding.perform_queues`, `Code.run_queues` -- what a binding and a run of code add;
* `Code.run_alike` -- what is queued or was misused plays no part;
* `Guest.enter_verdict`, `Guest.enter_queues` -- so it is with one call of a guest.
-/

namespace Heapscope

/-! ## Bindings -/

namespace Binding

/-- The note and the message that a binding asks for, or how it is misused. -/
def outcome (s : Surroundings) (m : Machine) (b : Binding) :
    Except Misuse (Option Note × Option LogEntry) := do
  let note ← b.note? s m
  let entry ← b.log? s m
  let _ ← b.reply s m
  pure (note, entry)

/-- The kind of the note that a binding asks for. -/
def kind? : Binding → Option NoteKind
  | annotateRange .. => some (.add .range)
  | annotateText .. => some (.add .text)
  | annotatePointer .. => some (.add .pointer)
  | annotateColor .. => some (.add .color)
  | remove mark _ => some (.remove mark)
  | _ => none

/-- The address that a binding puts into a note. -/
def address? : Binding → Option Int32
  | annotateRange address _ _ _ | annotateText address _ _ | annotatePointer address _
  | annotateColor address _ _ | remove _ address => some address
  | _ => none

/-- The size that a binding puts into a note. -/
def size? : Binding → Option Int32
  | annotateRange _ size _ _ | annotateColor _ size _ => some size
  | _ => none

/-- The end of an arrow that a binding puts into a note. -/
def target? : Binding → Option Int32
  | annotatePointer _ target => some target
  | _ => none

end Binding

/-- A note is of the kind of a binding and has the numbers that it was called with, taken as unsigned
ones. -/
structure Note.Carries (n : Note) (b : Binding) : Prop where
  kind : b.kind? = some n.kind
  address : b.address?.map Int32.toUInt32 = some n.address
  size : n.size = b.size?.map Int32.toUInt32
  target : n.target = b.target?.map Int32.toUInt32

namespace Binding

variable {s : Surroundings} {m : Machine} {b : Binding}

/-- A binding that is not misused asks for a note, for a message and for a reply without fault. -/
theorem outcome_ok {note : Option Note} {entry : Option LogEntry}
    (ok : b.outcome s m = .ok (note, entry)) :
    b.note? s m = .ok note ∧ b.log? s m = .ok entry ∧ ∃ done, b.reply s m = .ok done := by
  obtain ⟨note', asked, ok⟩ := exists_of_bind_ok ok
  obtain ⟨entry', said, ok⟩ := exists_of_bind_ok ok
  obtain ⟨done, replied, ok⟩ := exists_of_bind_ok ok
  cases ok
  exact ⟨asked, said, done, replied⟩

/-- A binding that is not misused adds what it asks for behind what is queued. -/
theorem perform_of_ok {note : Option Note} {entry : Option LogEntry}
    (ok : b.outcome s m = .ok (note, entry)) :
    ∃ reply memory, b.perform s m = (reply, { m with
      notes := m.notes ++ note.toList, logs := m.logs ++ entry.toList, memory }) := by
  obtain ⟨asked, said, done, replied⟩ := outcome_ok ok
  refine ⟨done.1, done.2, ?_⟩
  unfold perform
  rw [asked, said, replied]
  rfl

/-- A misused binding adds nothing; the misuse is kept if it is the first. -/
theorem perform_of_misuse {f : Misuse} (misuse : b.outcome s m = .error f) :
    b.perform s m = (-1, m.misused f) := by
  unfold outcome at misuse
  unfold perform
  -- the first part that fails is the fault of both
  cases asked : b.note? s m with
  | error f' =>
    rw [asked] at misuse
    cases misuse
    rfl
  | ok note =>
    cases said : b.log? s m with
    | error f' =>
      rw [asked, said] at misuse
      cases misuse
      rfl
    | ok entry =>
      cases replied : b.reply s m with
      | error f' =>
        rw [asked, said, replied] at misuse
        cases misuse
        rfl
      | ok done =>
        rw [asked, said, replied] at misuse
        cases misuse

/-- The note that a binding asks for has the numbers that it was called with. -/
theorem carries_of_note {n : Note} (asked : b.note? s m = .ok (some n)) : n.Carries b := by
  cases b with
  | annotateRange address size color alpha =>
    obtain ⟨paint, -, made⟩ := exists_of_bind_ok asked
    cases made
    exact ⟨rfl, rfl, rfl, rfl⟩
  | annotateText address text length =>
    obtain ⟨label, -, made⟩ := exists_of_bind_ok asked
    cases made
    exact ⟨rfl, rfl, rfl, rfl⟩
  | annotatePointer address target =>
    cases asked
    exact ⟨rfl, rfl, rfl, rfl⟩
  | annotateColor address size color =>
    obtain ⟨paint, -, made⟩ := exists_of_bind_ok asked
    cases made
    exact ⟨rfl, rfl, rfl, rfl⟩
  | remove mark address =>
    cases asked
    exact ⟨rfl, rfl, rfl, rfl⟩
  | totalMemory | threadId | isDebug | optionLength | readOption | log => cases asked

end Binding

/-! ## All that code calls -/

/-- A binding that is called, with the note and the message that it adds or how it is misused. -/
structure Use where
  binding : Binding
  outcome : Except Misuse (Option Note × Option LogEntry)
  carries : ∀ note entry, outcome = .ok (some note, entry) → note.Carries binding

namespace Use

/-- What comes of a binding that is called on a machine. -/
def of (s : Surroundings) (m : Machine) (b : Binding) : Use :=
  ⟨b, b.outcome s m, fun _ _ ok => Binding.carries_of_note (Binding.outcome_ok ok).1⟩

/-- The note that is added. -/
def note? (u : Use) : Option Note :=
  match u.outcome with
  | .ok (note, _) => note
  | .error _ => none

/-- The message that is added. -/
def log? (u : Use) : Option LogEntry :=
  match u.outcome with
  | .ok (_, entry) => entry
  | .error _ => none

/-- The misuse. -/
def misuse? (u : Use) : Option Misuse :=
  match u.outcome with
  | .ok _ => none
  | .error f => some f

/-- The note that is added has the numbers of the binding. -/
theorem carries_of_note {u : Use} {n : Note} (added : u.note? = some n) : n.Carries u.binding := by
  unfold note? at added
  cases out : u.outcome with
  | error f =>
    rw [out] at added
    cases added
  | ok parts =>
    rw [out] at added
    exact u.carries n parts.2 (by rw [out, ← added])

end Use

namespace Binding

/-- A binding adds what its use shows, and changes nothing else but memory. -/
theorem perform_queues (s : Surroundings) (m : Machine) (b : Binding) :
    ∃ reply memory, b.perform s m = (reply, { m with
      memory
      notes := m.notes ++ (Use.of s m b).note?.toList
      logs := m.logs ++ (Use.of s m b).log?.toList
      fault := m.fault.or (Use.of s m b).misuse? }) := by
  cases out : b.outcome s m with
  | error f =>
    refine ⟨-1, m.memory, ?_⟩
    rw [perform_of_misuse out]
    simp [Use.of, Use.note?, Use.log?, Use.misuse?, out, Machine.misused]
  | ok parts =>
    obtain ⟨note, entry⟩ := parts
    obtain ⟨reply, memory, performed⟩ := perform_of_ok out
    refine ⟨reply, memory, ?_⟩
    rw [performed]
    simp [Use.of, Use.note?, Use.log?, Use.misuse?, out]

end Binding

namespace Code

variable {α : Type}

/-- The bindings that code calls when it runs on a machine, in order. -/
def uses (s : Surroundings) : Code α → Machine → List Use
  | finish _, _ | trap _, _ => []
  | call b next, m =>
    .of s m b :: (next (b.perform s m).1).uses s (b.perform s m).2
  | load address count next, m =>
    match m.memory.read? address count with
    | none => []
    | some bytes => (next bytes).uses s m
  | store address bytes next, m =>
    match m.memory.write? address bytes with
    | none => []
    | some memory => (next ()).uses s { m with memory }
  | fill address count value next, m =>
    match m.memory.fill? address count value with
    | none => []
    | some memory => (next ()).uses s { m with memory }
  | grow pages next, m =>
    match m.memory.grow? s.options.memoryLimit.toNat pages with
    | none => (next (-1)).uses s m
    | some memory => (next (Int32.ofNat m.memory.pages)).uses s { m with memory }
  | get x next, m => (next (m.globals x)).uses s m
  | set x value next, m =>
    (next ()).uses s { m with globals := fun y => if y = x then value else m.globals y }

/-- Whatever code calls, it calls on some machine. -/
theorem exists_of_mem_uses {s : Surroundings} {code : Code α} {m : Machine} {u : Use}
    (called : u ∈ code.uses s m) : ∃ m', u = .of s m' u.binding := by
  induction code generalizing m with
  | finish | trap => cases called
  | call b next ih =>
    rcases List.mem_cons.mp called with rfl | later
    · exact ⟨m, rfl⟩
    · exact ih _ later
  | load address count next ih =>
    rw [uses] at called
    split at called
    · cases called
    · exact ih _ called
  | store address bytes next ih | fill address count value next ih =>
    rw [uses] at called
    split at called
    · cases called
    · exact ih _ called
  | grow pages next ih =>
    rw [uses] at called
    split at called <;> exact ih _ called
  | get x next ih | set x value next ih => exact ih _ called

end Code

/-- What a machine has queued and kept when bindings were called on another. -/
structure Machine.Queued (m : Machine) (uses : List Use) (m' : Machine) : Prop where
  notes : m'.notes = m.notes ++ uses.filterMap Use.note?
  logs : m'.logs = m.logs ++ uses.filterMap Use.log?
  fault : m'.fault = m.fault.or (uses.findSome? Use.misuse?)

namespace Machine.Queued

variable {m m' : Machine} {uses : List Use}

theorem nil (memory : LinearMemory) (globals : Nat → Int32) :
    m.Queued [] { m with memory, globals } :=
  ⟨(List.append_nil _).symm, (List.append_nil _).symm, Option.or_none.symm⟩

/-- Memory and variables play no part. -/
theorem elsewhere {memory : LinearMemory} {globals : Nat → Int32}
    (queued : Machine.Queued { m with memory, globals } uses m') : m.Queued uses m' :=
  ⟨queued.notes, queued.logs, queued.fault⟩

/-- A binding that is called goes in front of those that follow it. -/
theorem cons (s : Surroundings) (b : Binding) (rest : (b.perform s m).2.Queued uses m') :
    m.Queued (.of s m b :: uses) m' := by
  obtain ⟨reply, memory, performed⟩ := b.perform_queues s m
  rw [performed] at rest
  refine ⟨?_, ?_, ?_⟩
  · rw [rest.notes, List.filterMap_cons]
    cases (Use.of s m b).note? <;> simp
  · rw [rest.logs, List.filterMap_cons]
    cases (Use.of s m b).log? <;> simp
  · rw [rest.fault, List.findSome?_cons, Option.or_assoc]
    cases (Use.of s m b).misuse? <;> rfl

end Machine.Queued

namespace Code

variable {α : Type}

/-- A run of code adds what the bindings that it calls ask for, in the order in which it calls them,
and keeps the first misuse.  What it does between the calls adds nothing. -/
theorem run_queues (s : Surroundings) (code : Code α) (m : Machine) :
    m.Queued (code.uses s m) (code.run s m).2 := by
  induction code generalizing m with
  | finish a => exact .nil m.memory m.globals
  | trap t => exact .nil m.memory m.globals
  | call b next ih => exact .cons s b (ih _ _)
  | load address count next ih =>
    simp only [uses, run]
    cases m.memory.read? address count with
    | none => exact .nil m.memory m.globals
    | some bytes => exact ih bytes m
  | store address bytes next ih =>
    simp only [uses, run]
    cases m.memory.write? address bytes with
    | none => exact .nil m.memory m.globals
    | some memory => exact .elsewhere (ih () { m with memory })
  | fill address count value next ih =>
    simp only [uses, run]
    cases m.memory.fill? address count value with
    | none => exact .nil m.memory m.globals
    | some memory => exact .elsewhere (ih () { m with memory })
  | grow pages next ih =>
    simp only [uses, run]
    cases m.memory.grow? s.options.memoryLimit.toNat pages with
    | none => exact ih (-1) m
    | some memory => exact .elsewhere (ih (Int32.ofNat m.memory.pages) { m with memory })
  | get x next ih => exact ih _ m
  | set x value next ih =>
    exact .elsewhere (ih () { m with globals := fun y => if y = x then value else m.globals y })

end Code

/-! ## What is queued plays no part -/

namespace Machine

/-- A machine with nothing queued and nothing misused. -/
def bare (m : Machine) : Machine := { m with notes := [], logs := [], fault := none }

/-- Machines that are alike without their queues differ in their queues only. -/
theorem exists_of_bare {m m' : Machine} (alike : m.bare = m'.bare) :
    ∃ notes logs fault, m' = { m with notes, logs, fault } := by
  obtain ⟨thread, memory, globals, notes, logs, fault⟩ := m
  obtain ⟨thread', memory', globals', notes', logs', fault'⟩ := m'
  simp only [bare, mk.injEq, and_true] at alike
  obtain ⟨rfl, rfl, rfl⟩ := alike
  exact ⟨notes', logs', fault', rfl⟩

end Machine

namespace Binding

variable {m m' : Machine}

theorem note?_bare (s : Surroundings) (m : Machine) (b : Binding) :
    b.note? s m.bare = b.note? s m := by
  cases b <;> rfl

theorem log?_bare (s : Surroundings) (m : Machine) (b : Binding) :
    b.log? s m.bare = b.log? s m := by
  cases b <;> rfl

theorem reply_bare (s : Surroundings) (m : Machine) (b : Binding) :
    b.reply s m.bare = b.reply s m := by
  cases b <;> rfl

/-- A binding is replied to alike, and does alike, whatever is queued. -/
theorem perform_bare (s : Surroundings) (m : Machine) (b : Binding) :
    (b.perform s m.bare).1 = (b.perform s m).1 ∧
      (b.perform s m.bare).2.bare = (b.perform s m).2.bare := by
  unfold perform
  rw [note?_bare, log?_bare, reply_bare]
  cases b.note? s m with
  | error f => exact ⟨rfl, rfl⟩
  | ok note =>
    cases b.log? s m with
    | error f => exact ⟨rfl, rfl⟩
    | ok entry =>
      cases b.reply s m with
      | error f => exact ⟨rfl, rfl⟩
      | ok done => exact ⟨rfl, rfl⟩

end Binding

theorem Use.of_bare (s : Surroundings) (m : Machine) (b : Binding) :
    Use.of s m.bare b = Use.of s m b := by
  have same : b.outcome s m.bare = b.outcome s m := by
    unfold Binding.outcome
    rw [Binding.note?_bare, Binding.log?_bare, Binding.reply_bare]
  simp only [Use.of, same]

namespace Code

variable {α : Type} {m m' : Machine}

/-- Code runs alike on machines that differ in their queues only. -/
theorem run_alike (s : Surroundings) (code : Code α) (alike : m.bare = m'.bare) :
    (code.run s m).1 = (code.run s m').1 ∧ (code.run s m).2.bare = (code.run s m').2.bare ∧
      code.uses s m = code.uses s m' := by
  induction code generalizing m m' with
  | finish a => exact ⟨rfl, alike, rfl⟩
  | trap t => exact ⟨rfl, alike, rfl⟩
  | call b next ih =>
    obtain ⟨reply, after⟩ := b.perform_bare s m
    obtain ⟨reply', after'⟩ := b.perform_bare s m'
    rw [alike] at reply after
    obtain ⟨result, rest, called⟩ := ih (b.perform s m').1 (after.symm.trans after')
    simp only [uses, run, ← reply, reply']
    refine ⟨result, rest, ?_⟩
    rw [called, ← Use.of_bare s m, alike, Use.of_bare]
  | load address count next ih =>
    obtain ⟨notes, logs, fault, rfl⟩ := Machine.exists_of_bare alike
    simp only [uses, run]
    cases m.memory.read? address count with
    | none => exact ⟨rfl, rfl, rfl⟩
    | some bytes => exact ih bytes rfl
  | store address bytes next ih =>
    obtain ⟨notes, logs, fault, rfl⟩ := Machine.exists_of_bare alike
    simp only [uses, run]
    cases m.memory.write? address bytes with
    | none => exact ⟨rfl, rfl, rfl⟩
    | some memory => exact ih () rfl
  | fill address count value next ih =>
    obtain ⟨notes, logs, fault, rfl⟩ := Machine.exists_of_bare alike
    simp only [uses, run]
    cases m.memory.fill? address count value with
    | none => exact ⟨rfl, rfl, rfl⟩
    | some memory => exact ih () rfl
  | grow pages next ih =>
    obtain ⟨notes, logs, fault, rfl⟩ := Machine.exists_of_bare alike
    simp only [uses, run]
    cases m.memory.grow? s.options.memoryLimit.toNat pages with
    | none => exact ih (-1) rfl
    | some memory => exact ih _ rfl
  | get x next ih =>
    obtain ⟨notes, logs, fault, rfl⟩ := Machine.exists_of_bare alike
    exact ih _ rfl
  | set x value next ih =>
    obtain ⟨notes, logs, fault, rfl⟩ := Machine.exists_of_bare alike
    exact ih () rfl

end Code

/-! ## One call of a guest -/

namespace Guest

variable {α : Type} {s : Surroundings} {m : Machine}

/-- What one call comes to: the first misuse counts before a trap, and a trap before the result. -/
def verdict (uses : List Use) (result : Except Trap α) : Except HostError α :=
  match uses.findSome? Use.misuse? with
  | some f => .error (.fault f.message)
  | none => result.mapError fun t => .trap t.message

/-- A call comes to what its own bindings and its own result say.  Nothing that was queued, misused
or trapped before plays a part. -/
theorem enter_verdict (s : Surroundings) (code : Code α) (m : Machine) :
    (enter s code m).1 = verdict (code.uses s m.bare) (code.run s m.bare).1 := by
  have queued := code.run_queues s { m with fault := none }
  obtain ⟨result, -, called⟩ :=
    code.run_alike s (show ({ m with fault := none } : Machine).bare = m.bare.bare from rfl)
  have kept : (code.run s { m with fault := none }).2.fault
      = (code.uses s m.bare).findSome? Use.misuse? := by
    rw [queued.fault, called]
    rfl
  unfold enter verdict
  simp only [kept, ← result]
  cases (code.uses s m.bare).findSome? Use.misuse? <;> rfl

/-- A call adds to the queues what its bindings ask for, whatever it comes to. -/
theorem enter_queues (s : Surroundings) (code : Code α) (m : Machine) :
    (enter s code m).2.notes = m.notes ++ (code.uses s m.bare).filterMap Use.note? ∧
      (enter s code m).2.logs = m.logs ++ (code.uses s m.bare).filterMap Use.log? := by
  have queued := code.run_queues s { m with fault := none }
  obtain ⟨-, -, called⟩ :=
    code.run_alike s (show ({ m with fault := none } : Machine).bare = m.bare.bare from rfl)
  rw [called] at queued
  unfold enter
  simp only
  cases (code.run s { m with fault := none }).2.fault with
  | none => exact ⟨queued.notes, queued.logs⟩
  | some f => exact ⟨queued.notes, queued.logs⟩

end Guest

end Heapscope
