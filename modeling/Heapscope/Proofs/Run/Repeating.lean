import Heapscope.Proofs.Run.Refusals
import Heapscope.Proofs.Run.Silence

/-!
# Running a trace

The calls of a trace name the keys, the addresses and the colors that the calls of the workload left
open.  An allocator that adds no annotations does the same with them: each call finds the block that
it found before, and the palette is not asked.  So a trace is what its own run gives.

* `Heap.atTurn` -- memory in which another color of the palette is next;
* `Heap.Applied.again`, `Heap.steps_again` -- calls that were made are made again in the same way;
* `run_of_trace` -- the run of a trace is the run that gave it.
-/

namespace Heapscope

namespace Heap

variable {σ : Type} {h : Host σ} {palette : Palette} {start : σ} {heap heap' : Heap σ}
  {call done : Call}

/-- Memory in which another color of the palette is next. -/
def atTurn (turn : Nat) (heap : Heap σ) : Heap σ := { heap with uncolored := turn }

/-- A call that was made is made again in the same way, whichever color is next: it has its key and
its color, so neither the address nor the palette decides about them. -/
theorem Applied.again (applied : Applied h palette heap call done heap') (turn : Nat) :
    Applied h palette (heap.atTurn turn) done done (heap'.atTurn turn) := by
  cases applied with
  | @malloc size address pinned color key block host bytes op positive placed named fresh marked
      made =>
    subst made
    exact @Applied.malloc σ h palette (heap.atTurn turn) _ size address pinned (some _) key _ host
      bytes rfl positive placed rfl fresh marked rfl
  | @free address color key block host bytes op named found cleared told =>
    exact @Applied.free σ h palette (heap.atTurn turn) _ (some block.address) (some _) key block
      host bytes rfl rfl found cleared told
  | sleep op => exact .sleep op
  | annotate op valid => exact .annotate op valid

theorem collect_atTurn (turn : Nat) (o : Origin) (applied : Except Refusal (List Call)) :
    (heap.atTurn turn).collect h o applied = ⟨(heap.collect h o applied).heap.atTurn turn,
      (heap.collect h o applied).logs, (heap.collect h o applied).result⟩ := by
  unfold collect
  cases applied with
  | error e => rfl
  | ok calls =>
    simp only [atTurn]
    split
    · rfl
    · rfl

/-- Without annotations a step adds one call, and with this call it is the same step. -/
theorem step_again {index : Nat} {calls : List Call} (nonempty : palette.colors ≠ [])
    (silent : h.Silent start) (before : h.Reaches start heap.host)
    (ok : (heap.step h palette index call).result = .ok calls) (turn : Nat) :
    ∃ done, calls = [done] ∧ (heap.atTurn turn).step h palette index done =
      ⟨(heap.step h palette index call).heap.atTurn turn, (heap.step h palette index call).logs,
        .ok [done]⟩ := by
  obtain ⟨done, heap', applied, -, rfl, -⟩ := step_ok ok
  have framed := (enriched_of_applied nonempty applied).1.framed
  have quiet : queued h heap' = [] :=
    queued_eq_nil silent (applied.host (before.setThread call.thread))
  have again :
      Applied h palette ((heap.atTurn turn).told h done) done done (heap'.atTurn turn) := by
    have told : (heap.atTurn turn).told h done = (heap.told h call).atTurn turn := by
      unfold Heap.told
      rw [framed.thread_eq]
      rfl
    rw [told]
    exact applied.again turn
  have origin : Origin.ofCall index done = .ofCall index call := by
    unfold Origin.ofCall
    rw [framed.thread_eq, framed.time_eq, framed.duration_eq]
  rw [quiet] at ok
  refine ⟨done, by rw [quiet]; rfl, ?_⟩
  rw [step_of_applied index again, origin, collect_atTurn, ← step_of_applied index applied, ok]
  rfl

/-- Without annotations the calls that calls have become are made in the same way. -/
theorem steps_again {index : Nat} {calls made : List Call} (nonempty : palette.colors ≠ [])
    (silent : h.Silent start) (before : h.Reaches start heap.host)
    (ok : (heap.steps h palette index calls).result = .ok made) (turn : Nat) :
    (heap.atTurn turn).steps h palette index made =
      ⟨(heap.steps h palette index calls).heap.atTurn turn, (heap.steps h palette index calls).logs,
        .ok made⟩ := by
  induction calls generalizing heap index made with
  | nil =>
    cases ok
    rfl
  | cons call rest ih =>
    cases first : (heap.step h palette index call).result with
    | error e =>
      rw [steps_cons_of_error first] at ok
      cases ok
    | ok calls =>
      rw [(steps_cons_of_ok rest first).2] at ok
      obtain ⟨tail, more, rfl⟩ := exists_of_map_ok ok
      obtain ⟨done, rfl, again⟩ := step_again nonempty silent before first turn
      rw [List.singleton_append, steps, steps, again]
      simp only [first, ih (host_step before first) more, more, Except.map, List.singleton_append]

end Heap

/-! ## Whole runs -/

section Runs

variable {σ : Type} {h : Host σ} {palette : Palette} {host : σ} {calls : List Call}

/-- The calls of the trace of a run, run again from the same state of an allocator that adds no
annotations, give the same: the same trace, messages and blocks in use, the same peak and count of
bytes, and the same state of the allocator. -/
theorem run_of_trace (silent : h.Silent host) {r : Run}
    (ok : (run h palette host calls).1 = .ok r) :
    run h palette host r.trace.calls = run h palette host calls := by
  have nonempty := colors_ne_nil_of_run_ok ok
  obtain ⟨heap, ⟨notes, made, noted, stepped, trace, -⟩, sorted, -⟩ := run_ok ok
  obtain ⟨rfl, uncolored⟩ := setup_notes noted
  have before : h.Reaches host (Heap.start h host).host := .refl
  rw [Heap.queued_eq_nil silent before] at noted trace
  have sorted' : firstUnsorted r.trace.calls = none :=
    firstUnsortedFrom_of_inOrder r.trace.inOrder 0
  have again := Heap.steps_again nonempty silent (Heap.host_setup h host) stepped 0
  have unturned : (Heap.setup h host).heap.atTurn 0 = (Heap.setup h host).heap := by
    unfold Heap.atTurn
    rw [← uncolored]
  rw [unturned] at again
  rw [run_eq nonempty, run_eq nonempty, runCalls_eq, runCalls_eq, noted, sorted, sorted', trace]
  simp only [List.map_nil, List.nil_append, again, stepped]
  rfl

/-- The trace of two blocks and a release names what the calls left open, and runs to itself. -/
theorem run_of_trace_of_twoBlocks :
    (FirstFit.host 8).Silent (FirstFit.empty 8) ∧
    ∃ r, (run (FirstFit.host 8) .default (FirstFit.empty 8) twoBlocks).1 = .ok r ∧
      r.trace.calls ≠ twoBlocks ∧
      run (FirstFit.host 8) .default (FirstFit.empty 8) r.trace.calls
        = run (FirstFit.host 8) .default (FirstFit.empty 8) twoBlocks := by
  have silent : (FirstFit.host 8).Silent (FirstFit.empty 8) := FirstFit.Quiet.silent ⟨rfl, rfl⟩ 8
  obtain ⟨r, ok, named⟩ : ∃ r,
      (run (FirstFit.host 8) .default (FirstFit.empty 8) twoBlocks).1 = .ok r ∧
        r.trace.calls.head?.bind Call.id = some (.address 0) := ⟨_, rfl, rfl⟩
  refine ⟨silent, r, ok, ?_, run_of_trace silent ok⟩
  intro same
  rw [same] at named
  cases named

end Runs

end Heapscope
