import Heapscope.Proofs.Run.Lockstep
import Heapscope.Run.Timing

/-!
# Allocators seen through a map of their states

When a map of states carries what one allocator does to what another does, with the same replies, a
run cannot tell the two apart: it has the same result with both, and ends in states that belong
together.  So does a timing pass.

* `Host.SeenAs` -- such maps, which keep allocators in lockstep;
* `run_seen`, `timing_seen` -- whole runs and timing passes.
-/

namespace Heapscope

variable {σ τ : Type}

/-- An allocator whose states, through a map, are those of another with the same replies. -/
structure Host.SeenAs (h : Host σ) (view : σ → τ) (k : Host τ) : Prop where
  capacity : k.capacity = h.capacity
  setThread : ∀ thread s, k.setThread thread (view s) = view (h.setThread thread s)
  malloc : ∀ size s, k.malloc size (view s) = ((h.malloc size s).1, view (h.malloc size s).2)
  free : ∀ address s, k.free address (view s) = ((h.free address s).1, view (h.free address s).2)
  drainNotes : ∀ s, k.drainNotes (view s) = ((h.drainNotes s).1, view (h.drainNotes s).2)
  drainLogs : ∀ s, k.drainLogs (view s) = ((h.drainLogs s).1, view (h.drainLogs s).2)

variable {h : Host σ} {k : Host τ} {view : σ → τ} {palette : Palette}

/-- A state and what is seen of it stay together. -/
theorem Host.SeenAs.lockstep (same : h.SeenAs view k) : h.Lockstep k fun s t => view s = t where
  capacity := same.capacity
  setThread := by
    rintro s _ rfl thread
    exact (same.setThread thread s).symm
  malloc := by
    rintro s _ rfl size
    rw [same.malloc]
    exact ⟨rfl, rfl⟩
  free := by
    rintro s _ rfl address -
    rw [same.free]
    exact ⟨rfl, rfl⟩
  drainNotes := by
    rintro s _ rfl
    rw [same.drainNotes]
    exact ⟨rfl, rfl⟩
  drainLogs := by
    rintro s _ rfl
    rw [same.drainLogs]
    exact ⟨rfl, rfl⟩

/-- A run has the same result with an allocator that looks the same, and leaves it in the state that
belongs to the other. -/
theorem run_seen (same : h.SeenAs view k) (host : σ) (calls : List Call) :
    run k palette (view host) calls
      = ((run h palette host calls).1, view (run h palette host calls).2) :=
  have paired := run_lockstep same.lockstep rfl palette calls
  Prod.ext paired.1.symm paired.2.symm

theorem timingFrom_seen (same : h.SeenAs view k) (live : OrderedMap AllocationKey UInt32)
    (ops : Nat) (host : σ) (calls : List Call) :
    timingFrom k live ops (view host) calls
      = ((timingFrom h live ops host calls).1, view (timingFrom h live ops host calls).2) := by
  induction calls generalizing live ops host with
  | nil => rfl
  | cons call rest ih =>
    unfold timingFrom
    cases call.op with
    | malloc size pinned color =>
      cases pinned with
      | some address => exact ih live ops host
      | none =>
        simp only [same.setThread, same.malloc]
        rcases h.malloc size (h.setThread call.thread host) with ⟨e | returned, host'⟩
        · rfl
        · simp only
          split
          · exact ih _ _ _
          · exact ih _ _ _
    | free address color =>
      simp only [same.setThread, same.free]
      cases call.id.or (address.map .address) with
      | none => exact ih live ops host
      | some key =>
        rw [Option.bind_some]
        cases live.find? key with
        | none => exact ih live ops host
        | some address =>
          simp only
          rcases h.free address (h.setThread call.thread host) with ⟨e | _, host'⟩
          · rfl
          · exact ih _ _ _
    | sleep => exact ih live ops host
    | annotate note => exact ih live ops host

/-- A timing pass asks an allocator that looks the same for the same. -/
theorem timing_seen (same : h.SeenAs view k) (host : σ) (calls : List Call) :
    timing k (view host) calls = ((timing h host calls).1, view (timing h host calls).2) :=
  timingFrom_seen same .empty 0 host calls

end Heapscope
