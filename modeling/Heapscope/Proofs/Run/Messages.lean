import Heapscope.Proofs.Host.Transcript
import Heapscope.Proofs.Run.Prefixes

/-!
# The messages of a run

A run shows every message that its allocator hands over, each with the call that led to it, whether
the run succeeds or fails.  This is told by a transcript: setup takes the messages and then the
annotations; an attempt at a call tells of its thread, asks for one allocation or release at most,
takes the messages, and after a success the annotations; and the last attempt is the one that fails.

* `Attempt` -- what passes during an attempt, and the messages that the run shows for it;
* `Heap.step_attempt`, `Heap.steps_attempts` -- one call and many;
* `run_messages` -- the transcript and the messages of a run.
-/

namespace Heapscope

/-- What passes between a run and its allocator when a call is attempted.  The annotations are left
alone when the call is refused. -/
structure Attempt where
  call : Call
  asked : Option Exchange
  messages : List LogEntry
  notes : Option (List Note)

namespace Attempt

/-- The allocator is told of the thread before anything else. -/
def events (a : Attempt) : List HostEvent :=
  .thread a.call.thread ::
    ((a.asked.map .exchange).toList ++ .logs a.messages :: (a.notes.map .notes).toList)

/-- The messages of an attempt at the call with an index, as a run shows them. -/
def records (index : Nat) (a : Attempt) : List LogRecord :=
  a.messages.map fun m => ⟨some index, a.call.time, a.call.thread, m⟩

end Attempt

namespace Heap

variable {σ : Type} (h : Host σ) (palette : Palette) (heap : Heap (Recorded σ))

/-! ## One call -/

theorem place_events (size : UInt32) (pinned : Option UInt32) (s : Recorded σ) :
    ∃ asked : Option Exchange, (place h.recorded size pinned s).2.events
      = s.events ++ (asked.map .exchange).toList := by
  unfold place
  cases pinned with
  | some address =>
    refine ⟨none, ?_⟩
    simp only
    split <;> simp
  | none =>
    refine ⟨some (.malloc s.thread size (h.malloc size s.host).1), ?_⟩
    simp only [Host.recorded_malloc]
    cases (h.malloc size s.host).1 <;> rfl

theorem malloc_events (size : UInt32) (pinned : Option UInt32) (color : Option Color)
    (id : Option AllocationKey) :
    ∃ asked : Option Exchange, (heap.malloc h.recorded palette size pinned color id).2.host.events
      = heap.host.events ++ (asked.map .exchange).toList := by
  obtain ⟨asked, events⟩ := place_events h size pinned heap.host
  unfold malloc
  split
  · exact ⟨none, by simp⟩
  · refine ⟨asked, ?_⟩
    rw [← events]
    rcases place h.recorded size pinned heap.host with ⟨e | address, host⟩
    · rfl
    · simp only
      split
      · rfl
      · rename_i claimed
        obtain ⟨-, -, -, bytes, -, rfl⟩ := claim_ok claimed
        rfl

theorem free_events (key : AllocationKey) :
    ∃ asked : Option Exchange, (heap.free h.recorded key).2.host.events
      = heap.host.events ++ (asked.map .exchange).toList := by
  unfold free
  split
  · exact ⟨none, by simp⟩
  · rename_i block found
    split
    · exact ⟨none, by simp⟩
    · by_cases pinned : block.pinned
      · refine ⟨none, ?_⟩
        simp [pinned]
      · refine ⟨some (.free heap.host.thread block.address
          (h.free block.address heap.host.host).1), ?_⟩
        simp only [pinned, Bool.false_eq_true, if_false, Host.recorded_free]
        cases (h.free block.address heap.host.host).1 <;> rfl

/-- A call asks the allocator for one allocation or release at most, whatever comes of it. -/
theorem apply_events (call : Call) :
    ∃ asked : Option Exchange, (heap.apply h.recorded palette call).2.host.events
      = heap.host.events ++ (asked.map .exchange).toList := by
  unfold apply
  cases call.op with
  | malloc size pinned color =>
    obtain ⟨asked, events⟩ := malloc_events h palette heap size pinned color call.id
    refine ⟨asked, ?_⟩
    rw [← events]
    simp only
    rcases heap.malloc h.recorded palette size pinned color call.id with
      ⟨e | ⟨key, block⟩, heap'⟩ <;> rfl
  | free address color =>
    simp only
    split
    · exact ⟨none, by simp⟩
    · rename_i key named
      obtain ⟨asked, events⟩ := free_events h heap key
      refine ⟨asked, ?_⟩
      rw [← events]
      rcases heap.free h.recorded key with ⟨e | block, heap'⟩ <;> rfl
  | sleep => exact ⟨none, by simp⟩
  | annotate note =>
    simp only
    split <;> exact ⟨none, by simp⟩

/-- Collecting takes the messages, and after a success the annotations. -/
theorem collect_events (o : Origin) (applied : Except Refusal (List Call)) :
    ∃ (messages : List LogEntry) (notes : Option (List Note)),
      (heap.collect h.recorded o applied).logs = messages.map o.record ∧
      (heap.collect h.recorded o applied).heap.host.events
        = heap.host.events ++ .logs messages :: (notes.map .notes).toList := by
  unfold collect
  cases applied with
  | error e => exact ⟨(h.drainLogs heap.host.host).1, none, rfl, rfl⟩
  | ok calls =>
    refine ⟨(h.drainLogs heap.host.host).1,
      some (h.drainNotes (h.drainLogs heap.host.host).2).1, ?_⟩
    simp only [Host.recorded]
    split
    · exact ⟨rfl, List.append_assoc _ _ _⟩
    · exact ⟨rfl, List.append_assoc _ _ _⟩

/-- A step is an attempt at its call. -/
theorem step_attempt (index : Nat) (call : Call) :
    ∃ a : Attempt, a.call = call ∧
      (heap.step h.recorded palette index call).logs = a.records index ∧
      (heap.step h.recorded palette index call).heap.host.events
        = heap.host.events ++ a.events := by
  let told : Heap (Recorded σ) :=
    { heap with host := h.recorded.setThread call.thread heap.host }
  obtain ⟨asked, applied⟩ := apply_events h palette told call
  obtain ⟨messages, notes, logs, collected⟩ :=
    collect_events h (told.apply h.recorded palette call).2 (.ofCall index call)
      ((told.apply h.recorded palette call).1.map fun c => [c])
  refine ⟨⟨call, asked, messages, notes⟩, rfl, logs, ?_⟩
  unfold step Attempt.events
  simp only
  rw [collected, applied, List.append_assoc]
  exact List.append_assoc _ _ _

/-! ## Many calls -/

/-- Calls are attempted one after the other: all of them, or up to the one that is refused. -/
theorem steps_attempts (index : Nat) (calls : List Call) :
    ∃ attempts : List Attempt,
      attempts.map Attempt.call = calls.take attempts.length ∧
      (heap.steps h.recorded palette index calls).logs
        = (attempts.zipIdx index).flatMap (fun p => p.1.records p.2) ∧
      (heap.steps h.recorded palette index calls).heap.host.events
        = heap.host.events ++ attempts.flatMap Attempt.events ∧
      (∀ made, (heap.steps h.recorded palette index calls).result = .ok made →
        attempts.length = calls.length) ∧
      ∀ place e, (heap.steps h.recorded palette index calls).result = .error (place, e) →
        ∃ i, place = some (index + i) ∧ attempts.length = i + 1 := by
  induction calls generalizing heap index with
  | nil =>
    refine ⟨[], rfl, rfl, (List.append_nil _).symm, fun _ _ => rfl, ?_⟩
    intro place e error
    cases error
  | cons call rest ih =>
    -- the attempt at the first call is the last one, or goes in front of those that follow
    obtain ⟨a, rfl, logs, events⟩ := step_attempt h palette heap index call
    rw [steps]
    cases first : (heap.step h.recorded palette index a.call).result with
    | error e =>
      refine ⟨[a], rfl, ?_, ?_, ?_, ?_⟩
      · simp [logs]
      · simp [events]
      · intro made ok
        cases ok
      · intro place e' error
        cases error
        exact ⟨0, (collect_error first).1, rfl⟩
    | ok calls =>
      obtain ⟨attempts, called, more, passed, all, upTo⟩ :=
        ih (heap.step h.recorded palette index a.call).heap (index + 1)
      refine ⟨a :: attempts, ?_, ?_, ?_, ?_, ?_⟩
      · rw [List.map_cons, called, List.length_cons, List.take_succ_cons]
      · simp [logs, more]
      · simp [events, passed]
      · intro made ok
        obtain ⟨tail, ok', -⟩ := exists_of_map_ok ok
        rw [List.length_cons, all tail ok', List.length_cons]
      · intro place e error
        obtain ⟨i, rfl, length⟩ := upTo place e (error_of_map_error error)
        refine ⟨i + 1, ?_, by rw [List.length_cons, length]⟩
        rw [Nat.add_assoc, Nat.add_comm 1 i]

end Heap

/-! ## Whole runs -/

section Runs

variable {σ : Type} {h : Host σ} {palette : Palette} {host : σ} {calls : List Call}

/-- The messages that are shown with a run. -/
def trail : Except RunFailure Run → List LogRecord
  | .ok r => r.logs
  | .error e => e.logs

/-- The transcript of a run by its attempts, and the messages that the run shows. -/
structure RunMessages (h : Host σ) (palette : Palette) (host : σ) (calls : List Call)
    (attempts : List Attempt) : Prop where
  /-- Watching the allocator makes no difference. -/
  result_eq : (run h.recorded palette (.start host) calls).1 = (run h palette host calls).1
  host_eq : (run h.recorded palette (.start host) calls).2.host = (run h palette host calls).2
  /-- The allocator is asked for nothing before the first attempt. -/
  events_eq : (run h.recorded palette (.start host) calls).2.events
    = .logs (h.drainLogs host).1 :: .notes (Heap.queued h (Heap.start h host))
      :: attempts.flatMap Attempt.events
  calls_eq : attempts.map Attempt.call = calls.take attempts.length
  /-- Every message is shown once, in order, with the call of its attempt. -/
  trail_eq : trail (run h palette host calls).1
    = ((h.drainLogs host).1.map fun m => ⟨none, .zero, 0, m⟩)
      ++ attempts.zipIdx.flatMap fun p => p.1.records p.2
  /-- A run that succeeds attempts all calls. -/
  all : ∀ r, (run h palette host calls).1 = .ok r → attempts.length = calls.length
  /-- A run that fails at a call attempts it last. -/
  upTo : ∀ e, (run h palette host calls).1 = .error e → InOrder calls →
    (∀ note ∈ Heap.queued h (Heap.start h host), note.validate h.capacity = .ok ()) →
    ∃ i, e.callIndex = some i ∧ attempts.length = i + 1
  /-- Calls that are out of order, or annotations of the setup that are not valid, make a run fail
  before the first attempt. -/
  unmade : ¬(InOrder calls ∧
      ∀ note ∈ Heap.queued h (Heap.start h host), note.validate h.capacity = .ok ()) →
    (∃ e, (run h palette host calls).1 = .error e) ∧ attempts = [] ∧
      exchanges (run h.recorded palette (.start host) calls).2.events = []

theorem trail_finish (o : Outcome σ) : trail o.finish = o.logs := by
  unfold Outcome.finish
  cases o.result with
  | error e => rfl
  | ok calls =>
    simp only
    cases Trace.ofCalls? calls <;> rfl

/-- A run fails before the first call when its calls are out of order or an annotation of the setup
is not valid. -/
theorem runCalls_of_unmade (unmade : ¬(InOrder calls ∧
      ∀ note ∈ Heap.queued h (Heap.start h host), note.validate h.capacity = .ok ())) :
    ∃ e, runCalls h palette host calls
      = ⟨(Heap.setup h host).heap, (Heap.setup h host).logs, .error e⟩ := by
  rw [runCalls_eq]
  cases noted : (Heap.setup h host).result with
  | error e => exact ⟨e, rfl⟩
  | ok notes =>
    obtain ⟨-, -, valid, -⟩ := Heap.collect_ok noted
    cases sorted : firstUnsorted calls with
    | some index => exact ⟨_, rfl⟩
    | none => exact absurd ⟨inOrder_of_firstUnsortedFrom sorted, valid⟩ unmade

/-- Setup takes the messages and then the annotations. -/
theorem setup_recorded (h : Host σ) (host : σ) :
    (Heap.setup h.recorded (.start host)).logs = (h.drainLogs host).1.map Origin.setup.record ∧
      (Heap.setup h.recorded (.start host)).heap.host.events
        = [.logs (h.drainLogs host).1, .notes (Heap.queued h (Heap.start h host))] := by
  unfold Heap.setup Heap.collect
  simp only
  split <;> exact ⟨rfl, rfl⟩

theorem trail_eq_logs (nonempty : palette.colors ≠ []) :
    trail (run h palette host calls).1
      = (runCalls h.recorded palette (.start host) calls).logs := by
  rw [← (run_recorded h palette host calls).1, run_eq nonempty, trail_finish]

theorem run_messages_of_unmade (nonempty : palette.colors ≠ [])
    (unmade : ¬(InOrder calls ∧
      ∀ note ∈ Heap.queued h (Heap.start h host), note.validate h.capacity = .ok ())) :
    RunMessages h palette host calls [] := by
  obtain ⟨result_eq, host_eq⟩ := run_recorded h palette host calls
  obtain ⟨logs, events⟩ := setup_recorded h host
  obtain ⟨e, outcome⟩ : ∃ e, runCalls h.recorded palette (.start host) calls
      = ⟨(Heap.setup h.recorded (.start host)).heap, (Heap.setup h.recorded (.start host)).logs,
        .error e⟩ := runCalls_of_unmade unmade
  have fails : ∃ e, (run h palette host calls).1 = .error e := by
    rw [← result_eq, run_eq nonempty, outcome]
    exact ⟨_, rfl⟩
  have passed : (run h.recorded palette (.start host) calls).2.events
      = [.logs (h.drainLogs host).1, .notes (Heap.queued h (Heap.start h host))] := by
    rw [run_eq nonempty, outcome]
    exact events
  refine ⟨result_eq, host_eq, passed, rfl, ?_, ?_, ?_, ?_⟩
  · rw [trail_eq_logs nonempty, outcome]
    exact logs.trans (List.append_nil _).symm
  · intro r ok
    obtain ⟨e, error⟩ := fails
    rw [error] at ok
    cases ok
  · intro e _ sorted valid
    exact absurd ⟨sorted, valid⟩ unmade
  · intro _
    refine ⟨fails, rfl, ?_⟩
    rw [passed]
    rfl

theorem run_messages_of_made (nonempty : palette.colors ≠ []) (sorted : InOrder calls)
    (valid : ∀ note ∈ Heap.queued h (Heap.start h host), note.validate h.capacity = .ok ()) :
    ∃ attempts, RunMessages h palette host calls attempts := by
  obtain ⟨result_eq, host_eq⟩ := run_recorded h palette host calls
  obtain ⟨logs, events⟩ := setup_recorded h host
  have noted : (Heap.setup h.recorded (.start host)).result = .ok _ :=
    Heap.setup_ok_of_valid valid
  obtain ⟨attempts, called, more, passed, all, upTo⟩ := Heap.steps_attempts h palette
    (Heap.setup h.recorded (.start host)).heap 0 calls
  have outcome : runCalls h.recorded palette (.start host) calls = _ :=
    runCalls_of_inOrder noted sorted
  refine ⟨attempts, result_eq, host_eq, ?_, called, ?_, ?_, ?_, ?_⟩
  · rw [run_eq nonempty, outcome]
    simp only
    rw [passed, events]
    rfl
  · rw [trail_eq_logs nonempty, outcome]
    simp only
    rw [more, logs]
    rfl
  · intro r ok
    rw [← result_eq] at ok
    obtain ⟨heap, ⟨-, made, -, stepped, -⟩, -⟩ := run_ok ok
    exact all made stepped
  · intro e error _ _
    rw [← result_eq] at error
    obtain ⟨i, index, length⟩ :=
      upTo _ _ (steps_error_of_run_error nonempty sorted noted error)
    rw [Nat.zero_add] at index
    exact ⟨i, index, length⟩
  · intro unmade
    exact absurd ⟨sorted, valid⟩ unmade

/-- A run shows exactly the messages that its allocator hands over: those from before the first
call, then for each call that is attempted those that follow the attempt, with the index, the time
and the thread of the call.  The last attempt of a run that fails is the one that fails; but when
the calls are out of order, or an annotation from before the first call is not valid, there is no
attempt, and the allocator is asked for nothing. -/
theorem run_messages (h : Host σ) (nonempty : palette.colors ≠ []) (host : σ)
    (calls : List Call) : ∃ attempts, RunMessages h palette host calls attempts := by
  by_cases made : InOrder calls ∧
      ∀ note ∈ Heap.queued h (Heap.start h host), note.validate h.capacity = .ok ()
  · exact run_messages_of_made nonempty made.1 made.2
  · exact ⟨[], run_messages_of_unmade nonempty made⟩

/-- The second of three calls is refused: the first two are attempted, and the messages from before
the first call and from the first call are shown. -/
theorem run_messages_of_outgrowing :
    ∃ attempts, RunMessages (FirstFit.host 8) .default
        { FirstFit.empty 8 with annotating := true, logs := [⟨.warn, "small"⟩] } outgrowing
        attempts ∧
      attempts.map Attempt.call = outgrowing.take 2 ∧
      ∃ e, (run (FirstFit.host 8) .default
          { FirstFit.empty 8 with annotating := true, logs := [⟨.warn, "small"⟩] } outgrowing).1
          = .error e ∧
        e.logs = [⟨none, .zero, 0, ⟨.warn, "small"⟩⟩,
          ⟨some 0, ⟨1⟩, 0, ⟨.info, "malloc(6) = 0"⟩⟩] := by
  have nonempty : Palette.default.colors ≠ [] := by decide
  obtain ⟨attempts, shown⟩ := run_messages (FirstFit.host 8) nonempty
    { FirstFit.empty 8 with annotating := true, logs := [⟨.warn, "small"⟩] } outgrowing
  have sorted : InOrder outgrowing :=
    inOrder_of_firstUnsortedFrom (show firstUnsorted _ = none by decide)
  obtain ⟨e, fails, index, logs⟩ : ∃ e, (run (FirstFit.host 8) .default
      { FirstFit.empty 8 with annotating := true, logs := [⟨.warn, "small"⟩] } outgrowing).1
        = .error e ∧ e.callIndex = some 1 ∧
      e.logs = [⟨none, .zero, 0, ⟨.warn, "small"⟩⟩,
        ⟨some 0, ⟨1⟩, 0, ⟨.info, "malloc(6) = 0"⟩⟩] := ⟨_, rfl, rfl, rfl⟩
  obtain ⟨i, index', length⟩ := shown.upTo e fails sorted (by simp [Heap.queued, FirstFit.host,
    FirstFit.empty, Heap.start])
  rw [index] at index'
  cases index'
  refine ⟨attempts, shown, ?_, e, fails, logs⟩
  rw [shown.calls_eq, length]

end Runs

end Heapscope
