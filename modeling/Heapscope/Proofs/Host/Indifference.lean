import Heapscope.Proofs.Host.Transcript
import Heapscope.Proofs.Run.Silence

/-!
# Indifferent allocators

Two states of an allocator are alike when no allocations and releases tell them apart.  The states
need not be the same: an allocator may have reported more in the one than in the other.  Most
allocators are indifferent to being drained and to being told of threads that ask for nothing.

* `Host.answers`, `Host.Alike` -- replies to calls, and states with the same ones;
* `Host.Indifferent` -- allocators that only allocations and releases change;
* `FirstFit.indifferent` -- first-fit allocators are, in every state.
-/

namespace Heapscope

namespace Host

variable {σ : Type} {h : Host σ}

/-- Makes a call on behalf of its thread. -/
def answer (h : Host σ) (s : σ) : HostCall → Exchange × σ
  | .malloc thread size =>
    let (reply, s) := h.malloc size (h.setThread thread s)
    (.malloc thread size reply, s)
  | .free thread address =>
    let (reply, s) := h.free address (h.setThread thread s)
    (.free thread address reply, s)

/-- Makes calls one after the other. -/
def answers (h : Host σ) : σ → List HostCall → List Exchange
  | _, [] => []
  | s, call :: rest => (h.answer s call).1 :: h.answers (h.answer s call).2 rest

/-- States with the same replies to all calls from there on. -/
def Alike (h : Host σ) (s s' : σ) : Prop := ∀ calls, h.answers s calls = h.answers s' calls

namespace Alike

variable {s s' s'' : σ}

theorem refl (s : σ) : h.Alike s s := fun _ => rfl

theorem trans (first : h.Alike s s') (second : h.Alike s' s'') : h.Alike s s'' :=
  fun calls => (first calls).trans (second calls)

/-- A call has the same reply in both states, and leaves states that are alike again. -/
theorem answer (alike : h.Alike s s') (call : HostCall) :
    (h.answer s call).1 = (h.answer s' call).1 ∧
      h.Alike (h.answer s call).2 (h.answer s' call).2 := by
  constructor
  · exact (List.cons.inj (alike [call])).1
  · intro rest
    exact (List.cons.inj (alike (call :: rest))).2

end Alike

/-- An allocator whose replies are the same when a queue has been drained, and when it has been told
of a thread before it is told of another. -/
structure Indifferent (h : Host σ) (start : σ) : Prop where
  setThread : ∀ {s}, h.Reaches start s → ∀ thread, h.Alike (h.setThread thread s) s
  drainNotes : ∀ {s}, h.Reaches start s → h.Alike (h.drainNotes s).2 s
  drainLogs : ∀ {s}, h.Reaches start s → h.Alike (h.drainLogs s).2 s

/-- An allocator goes through the states of one that looks the same. -/
theorem Reaches.seen {τ : Type} {k : Host τ} {view : σ → τ} {start s : σ}
    (same : h.SeenAs view k) (reaches : h.Reaches start s) : k.Reaches (view start) (view s) := by
  induction reaches with
  | refl => exact .refl
  | setThread thread _ ih =>
    rw [← same.setThread]
    exact ih.setThread thread
  | @malloc s size _ ih =>
    have after := ih.malloc size
    rwa [same.malloc] at after
  | @free s address _ ih =>
    have after := ih.free address
    rwa [same.free] at after
  | @drainNotes s _ ih =>
    have after := ih.drainNotes
    rwa [same.drainNotes] at after
  | @drainLogs s _ ih =>
    have after := ih.drainLogs
    rwa [same.drainLogs] at after

end Host

/-! ## First-fit allocators -/

namespace FirstFit

/-- A state without what no reply is made from. -/
def bare (s : FirstFit) : FirstFit :=
  { s with thread := 0, annotating := false, notes := [], logs := [], calls := [] }

theorem bare_report (s : FirstFit) (note : Note) (level : LogLevel) (message : String) :
    (s.report note level message).bare = s.bare := by
  unfold report
  split
  · rfl
  · rfl

theorem malloc_bare (size : UInt32) (s : FirstFit) :
    (malloc size s).1 = (malloc size s.bare).1 ∧
      (malloc size s).2.bare = (malloc size s.bare).2.bare := by
  have script : s.bare.script = s.script := rfl
  have capacity : s.bare.capacity = s.capacity := rfl
  have used : s.bare.used = s.used := rfl
  unfold malloc search
  simp only [script, capacity, used]
  cases s.script with
  | cons reply rest => exact ⟨rfl, rfl⟩
  | nil =>
    simp only
    generalize (if size.toNat = 0 ∨ s.capacity.toNat < size.toNat then none
      else searchFrom s.used size.toNat 0 (s.capacity.toNat - size.toNat + 1)) = found
    cases found with
    | none => exact ⟨rfl, rfl⟩
    | some start =>
      refine ⟨rfl, ?_⟩
      simp only [bare_report]
      rfl

theorem free_bare (address : UInt32) (s : FirstFit) :
    (free address s).1 = (free address s.bare).1 ∧
      (free address s).2.bare = (free address s.bare).2.bare := by
  have hasFree : s.bare.hasFree = s.hasFree := rfl
  have sizes : s.bare.sizes = s.sizes := rfl
  unfold free
  simp only [hasFree]
  cases s.hasFree with
  | false => exact ⟨rfl, rfl⟩
  | true =>
    simp only [if_true, bare_report, sizes, true_and]
    cases s.sizes.find? address with
    | none => rfl
    | some size => rfl

theorem answer_bare (capacity : UInt32) (s : FirstFit) (call : HostCall) :
    ((host capacity).answer s call).1 = ((host capacity).answer s.bare call).1 ∧
      ((host capacity).answer s call).2.bare = ((host capacity).answer s.bare call).2.bare := by
  cases call with
  | malloc thread size =>
    -- the thread is on record only, so it goes the way of the record
    obtain ⟨reply, after⟩ := malloc_bare size { s with thread }
    obtain ⟨reply', after'⟩ := malloc_bare size { s.bare with thread }
    exact ⟨congrArg (Exchange.malloc thread size) (reply.trans reply'.symm),
      after.trans after'.symm⟩
  | free thread address =>
    obtain ⟨reply, after⟩ := free_bare address { s with thread }
    obtain ⟨reply', after'⟩ := free_bare address { s.bare with thread }
    exact ⟨congrArg (Exchange.free thread address) (reply.trans reply'.symm),
      after.trans after'.symm⟩

theorem alike_of_bare (capacity : UInt32) {s s' : FirstFit} (same : s.bare = s'.bare) :
    (host capacity).Alike s s' := by
  intro calls
  induction calls generalizing s s' with
  | nil => rfl
  | cons call rest ih =>
    obtain ⟨reply, after⟩ := answer_bare capacity s call
    obtain ⟨reply', after'⟩ := answer_bare capacity s' call
    rw [Host.answers, Host.answers, reply, reply', same]
    rw [same] at after
    rw [ih (after.trans after'.symm)]

/-- First-fit allocators are indifferent, whatever their state. -/
theorem indifferent (capacity : UInt32) (start : FirstFit) :
    (host capacity).Indifferent start where
  setThread _ _ := alike_of_bare capacity rfl
  drainNotes _ := alike_of_bare capacity rfl
  drainLogs _ := alike_of_bare capacity rfl

end FirstFit

end Heapscope
