import Heapscope.Proofs.Host.Views

/-!
# Transcripts

An allocator can be watched: its state then keeps a transcript of what passes between it and a run.
Watching changes no reply, so what is on the transcript is what passes without one, too.

* `Host.recorded` -- the allocator that is watched;
* `run_recorded`, `timing_recorded` -- runs and timing passes are the same with it.
-/

namespace Heapscope

/-- An allocation or a release that is asked of an allocator, on behalf of a thread, and the
reply. -/
inductive Exchange where
  | malloc (thread : ThreadId) (size : UInt32) (reply : Except HostError Int64)
  | free (thread : ThreadId) (address : UInt32) (reply : Except HostError Unit)
deriving DecidableEq

/-- What passes between a run and its allocator. -/
inductive HostEvent where
  | thread (told : ThreadId)
  | exchange (x : Exchange)
  | notes (drained : List Note)
  | logs (drained : List LogEntry)

namespace HostEvent

def exchange? : HostEvent → Option Exchange
  | exchange x => some x
  | _ => none

end HostEvent

/-- The allocations and releases of a transcript. -/
def exchanges (events : List HostEvent) : List Exchange := events.filterMap HostEvent.exchange?

theorem exchanges_concat (events : List HostEvent) (e : HostEvent) :
    exchanges (events ++ [e]) = exchanges events ++ e.exchange?.toList := by
  unfold exchanges
  rw [List.filterMap_append]
  cases e <;> rfl

/-- The state of an allocator, the thread that it was told last, and what has passed. -/
structure Recorded (σ : Type) where
  host : σ
  thread : ThreadId
  events : List HostEvent

variable {σ : Type}

namespace Recorded

/-- Nothing has passed yet. -/
def start (host : σ) : Recorded σ := ⟨host, 0, []⟩

end Recorded

/-- An allocator that is watched. -/
def Host.recorded (h : Host σ) : Host (Recorded σ) where
  capacity := h.capacity
  setThread thread s :=
    { host := h.setThread thread s.host, thread, events := s.events ++ [.thread thread] }
  malloc size s :=
    let (reply, host) := h.malloc size s.host
    (reply, { s with host, events := s.events ++ [.exchange (.malloc s.thread size reply)] })
  free address s :=
    let (reply, host) := h.free address s.host
    (reply, { s with host, events := s.events ++ [.exchange (.free s.thread address reply)] })
  drainNotes s :=
    let (drained, host) := h.drainNotes s.host
    (drained, { s with host, events := s.events ++ [.notes drained] })
  drainLogs s :=
    let (drained, host) := h.drainLogs s.host
    (drained, { s with host, events := s.events ++ [.logs drained] })

namespace Host

variable (h : Host σ)

theorem recorded_malloc (size : UInt32) (s : Recorded σ) :
    h.recorded.malloc size s = ((h.malloc size s.host).1, ⟨(h.malloc size s.host).2, s.thread,
      s.events ++ [.exchange (.malloc s.thread size (h.malloc size s.host).1)]⟩) := rfl

theorem recorded_free (address : UInt32) (s : Recorded σ) :
    h.recorded.free address s = ((h.free address s.host).1, ⟨(h.free address s.host).2, s.thread,
      s.events ++ [.exchange (.free s.thread address (h.free address s.host).1)]⟩) := rfl

end Host

/-- Without its transcript an allocator that is watched is the one that is not. -/
theorem seenAs_recorded (h : Host σ) : h.recorded.SeenAs Recorded.host h where
  capacity := rfl
  setThread _ _ := rfl
  malloc _ _ := rfl
  free _ _ := rfl
  drainNotes _ := rfl
  drainLogs _ := rfl

/-- A run does not notice that its allocator is watched. -/
theorem run_recorded (h : Host σ) (palette : Palette) (host : σ) (calls : List Call) :
    (run h.recorded palette (.start host) calls).1 = (run h palette host calls).1 ∧
      (run h.recorded palette (.start host) calls).2.host = (run h palette host calls).2 := by
  have same : run h palette host calls = _ := run_seen (seenAs_recorded h) (.start host) calls
  rw [same]
  exact ⟨rfl, rfl⟩

/-- Nor does a timing pass. -/
theorem timing_recorded (h : Host σ) (host : σ) (calls : List Call) :
    (timing h.recorded (.start host) calls).1 = (timing h host calls).1 ∧
      (timing h.recorded (.start host) calls).2.host = (timing h host calls).2 := by
  have same : timing h host calls = _ := timing_seen (seenAs_recorded h) (.start host) calls
  rw [same]
  exact ⟨rfl, rfl⟩

end Heapscope
