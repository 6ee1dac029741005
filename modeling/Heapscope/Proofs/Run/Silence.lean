import Heapscope.Host.FirstFit
import Heapscope.Proofs.Run.Steps

/-!
# Silent allocators

A run brings an allocator from state to state by the calls that it makes of it.  An allocator that
queues no annotation in any state that such calls lead to never adds one to a run.

* `Host.Reaches`, `Host.Silent` -- the states of an allocator, and allocators without annotations;
* `Heap.host_of_reaches` -- a run stays among these states;
* `FirstFit.Quiet.silent` -- a first-fit allocator that was not told to annotate is silent.
-/

namespace Heapscope

namespace Host

variable {σ : Type}

/-- The states that calls bring an allocator to. -/
inductive Reaches (h : Host σ) (start : σ) : σ → Prop
  | refl : Reaches h start start
  | setThread {s : σ} (thread : ThreadId) (before : Reaches h start s) :
      Reaches h start (h.setThread thread s)
  | malloc {s : σ} (size : UInt32) (before : Reaches h start s) :
      Reaches h start (h.malloc size s).2
  | free {s : σ} (address : UInt32) (before : Reaches h start s) :
      Reaches h start (h.free address s).2
  | drainNotes {s : σ} (before : Reaches h start s) : Reaches h start (h.drainNotes s).2
  | drainLogs {s : σ} (before : Reaches h start s) : Reaches h start (h.drainLogs s).2

/-- An allocator that queues no annotations. -/
def Silent (h : Host σ) (start : σ) : Prop := ∀ s, h.Reaches start s → (h.drainNotes s).1 = []

end Host

/-! ## The allocator during a run -/

namespace Heap

variable {σ : Type} {h : Host σ} {palette : Palette} {start : σ} {heap heap' : Heap σ}

theorem host_of_place {size : UInt32} {pinned : Option UInt32} {host host' : σ}
    {result : Except Refusal UInt32} (before : h.Reaches start host)
    (placed : place h size pinned host = (result, host')) : h.Reaches start host' := by
  have after : h.Reaches start (place h size pinned host).2 := by
    unfold place
    cases pinned with
    | some address =>
      simp only
      split
      · exact before
      · exact before
    | none =>
      have asked := before.malloc size
      simp only
      split
      · rename_i told
        rwa [told] at asked
      · rename_i told
        rwa [told] at asked
  rwa [placed] at after

theorem Applied.host {call done : Call} (applied : Applied h palette heap call done heap')
    (before : h.Reaches start heap.host) : h.Reaches start heap'.host := by
  cases applied with
  | malloc op positive placed => exact host_of_place before placed
  | @free address color key block host bytes op named found cleared told =>
    split at told
    · cases told
      exact before
    · have asked := before.free block.address
      rwa [told] at asked
  | sleep op => exact before
  | annotate op => exact before

theorem host_collect {o : Origin} {applied : Except Refusal (List Call)}
    (before : h.Reaches start heap.host) :
    h.Reaches start (heap.collect h o applied).heap.host := by
  unfold collect
  cases applied with
  | error e => exact before.drainLogs
  | ok calls =>
    simp only
    split
    · exact before.drainLogs.drainNotes
    · exact before.drainLogs.drainNotes

theorem host_step {index : Nat} {call : Call} {calls : List Call}
    (before : h.Reaches start heap.host)
    (ok : (heap.step h palette index call).result = .ok calls) :
    h.Reaches start (heap.step h palette index call).heap.host := by
  unfold step at ok ⊢
  simp only at ok ⊢
  generalize made : apply h palette { heap with host := h.setThread call.thread heap.host } call
    = out at ok ⊢
  obtain ⟨result, heap'⟩ := out
  obtain ⟨front, eq, -⟩ := collect_ok ok
  cases result with
  | error e => cases eq
  | ok done => exact host_collect ((applied_of_apply_ok made).host (before.setThread call.thread))

theorem host_setup (h : Host σ) (start : σ) : h.Reaches start (setup h start).heap.host := by
  have before : h.Reaches start (Heap.start h start).host := .refl
  exact host_collect before

/-- A run goes through states of the allocator. -/
theorem host_of_reaches {calls done : List Call}
    (reaches : Reaches h palette start calls done heap) : h.Reaches start heap.host :=
  reaches_invariant (fun _ _ => host_setup h start) host_step reaches

theorem queued_eq_nil (silent : h.Silent start) (before : h.Reaches start heap.host) :
    queued h heap = [] :=
  silent _ before.drainLogs

end Heap

/-! ## First-fit allocators -/

namespace FirstFit

/-- An allocator that was not told to annotate, and has nothing queued. -/
structure Quiet (s : FirstFit) : Prop where
  annotating : s.annotating = false
  notes : s.notes = []

variable {s : FirstFit}

theorem report_of_not_annotating (silent : s.annotating = false) (note : Note) (level : LogLevel)
    (message : String) : s.report note level message = s := by
  unfold report
  rw [silent]
  rfl

theorem Quiet.report (quiet : s.Quiet) (note : Note) (level : LogLevel) (message : String) :
    (s.report note level message).Quiet := by
  rw [report_of_not_annotating quiet.annotating]
  exact quiet

theorem Quiet.malloc (quiet : s.Quiet) (size : UInt32) : (FirstFit.malloc size s).2.Quiet := by
  unfold FirstFit.malloc
  simp only
  split
  · exact ⟨quiet.annotating, quiet.notes⟩
  · split
    · exact ⟨quiet.annotating, quiet.notes⟩
    · refine Quiet.report ?_ _ _ _
      exact ⟨quiet.annotating, quiet.notes⟩

/-- An allocation by an allocator that does not annotate queues no message. -/
theorem Quiet.malloc_logs (quiet : s.Quiet) (size : UInt32) :
    (FirstFit.malloc size s).2.logs = s.logs := by
  unfold FirstFit.malloc
  simp only
  split
  · rfl
  · split
    · rfl
    · rw [report_of_not_annotating]
      exact quiet.annotating

theorem Quiet.free (quiet : s.Quiet) (address : UInt32) : (FirstFit.free address s).2.Quiet := by
  unfold FirstFit.free
  split
  · simp only
    split
    · refine Quiet.report ?_ _ _ _
      exact ⟨quiet.annotating, quiet.notes⟩
    · refine Quiet.report ?_ _ _ _
      exact ⟨quiet.annotating, quiet.notes⟩
  · exact quiet

/-- A release by an allocator that does not annotate queues no message. -/
theorem Quiet.free_logs (quiet : s.Quiet) (address : UInt32) :
    (FirstFit.free address s).2.logs = s.logs := by
  unfold FirstFit.free
  split
  · simp only
    split
    · rw [report_of_not_annotating]
      exact quiet.annotating
    · rw [report_of_not_annotating]
      exact quiet.annotating
  · rfl

theorem Quiet.of_reaches {capacity : UInt32} {start : FirstFit} (quiet : start.Quiet)
    (reaches : (host capacity).Reaches start s) : s.Quiet := by
  induction reaches with
  | refl => exact quiet
  | setThread thread _ ih => exact ⟨ih.annotating, ih.notes⟩
  | malloc size _ ih => exact ih.malloc size
  | free address _ ih => exact ih.free address
  | drainNotes _ ih => exact ⟨ih.annotating, rfl⟩
  | drainLogs _ ih => exact ⟨ih.annotating, ih.notes⟩

/-- A first-fit allocator that was not told to annotate is silent. -/
theorem Quiet.silent {start : FirstFit} (quiet : start.Quiet) (capacity : UInt32) :
    (host capacity).Silent start :=
  fun _ reaches => (quiet.of_reaches reaches).notes

end FirstFit

end Heapscope
