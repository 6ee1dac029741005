import Heapscope.Proofs.Keys
import Heapscope.Proofs.Run.Refusals
import Heapscope.Proofs.Run.Silence
import Heapscope.Proofs.Workload.Calls

/-!
# Runs of workloads

A workload that compiles is fit to be run: an allocator that queues no annotations makes its run fail
for reasons of its own only, or because a span is out of range or a key is in use already.  The calls
start after time zero, so what is queued during the setup comes before all of them.

* `Heap.Refused.of_makes` -- why a call of a workload is refused;
* `run_of_compiled` -- why the run of a workload fails, and the order of its trace.
-/

namespace Heapscope

/-! ## What a call of a workload can rely on -/

namespace Node.Makes

variable {n : Node} {c : Call}

theorem positive {size : UInt32} {pinned : Option UInt32} {color : Option Color}
    (makes : n.Makes c) (op : c.op = .malloc size pinned color) : size ≠ 0 := by
  cases makes with
  | malloc op' positive =>
    rw [op'] at op
    cases op
    exact positive
  | freeName op' | freeAddress op' | sleep op' | annotate op' =>
    rw [op'] at op
    cases op

/-- A release names a block, by a name of its thread or by an address. -/
theorem named {address : Option UInt32} {color : Option Color} (makes : n.Makes c)
    (op : c.op = .free address color) :
    ∃ key, c.id = some key ∧
      ((∃ name, key = .inThread c.thread name) ∨ ∃ a, key = .address a) := by
  cases makes with
  | freeName op' named id => exact ⟨_, id, .inl ⟨_, rfl⟩⟩
  | freeAddress op' id => exact ⟨_, id, .inr ⟨_, rfl⟩⟩
  | malloc op' | sleep op' | annotate op' =>
    rw [op'] at op
    cases op

theorem complete {note : Note} (makes : n.Makes c) (op : c.op = .annotate note) :
    note.Complete := by
  cases makes with
  | annotate op' complete =>
    rw [op'] at op
    cases op
    exact complete
  | malloc op' | freeName op' | freeAddress op' | sleep op' =>
    rw [op'] at op
    cases op

end Node.Makes

/-! ## Why a call of a workload is refused -/

namespace Refusal

/-- A refusal that a workload can meet, whatever is said of its values: no key is missing, and only
spans and keys in use are refused. -/
structure Fair (e : Refusal) : Prop where
  named : e ≠ .unknownBlock "<unnamed>"
  invalid : ∀ i, e = .invalid i →
    (∃ address size capacity, i = .outside address size capacity) ∨ ∃ key, i = .duplicateKey key

theorem fair_ofHost (lack : HostError) : (Refusal.ofHost lack).Fair := by
  cases lack <;> exact ⟨by simp [ofHost], by simp [ofHost]⟩

theorem fair_ofOccupancy (fault : OccupancyFault) : (Refusal.ofOccupancy fault).Fair := by
  cases fault with
  | inUse | unused => exact ⟨by simp [ofOccupancy], by simp [ofOccupancy]⟩
  | outside address size capacity =>
    refine ⟨by simp [ofOccupancy], ?_⟩
    intro i same
    cases same
    exact .inl ⟨_, _, _, rfl⟩

theorem fair_outside (address : Int64) (size capacity : UInt32) :
    (Refusal.invalid (.outside address size capacity)).Fair := by
  refine ⟨by simp, ?_⟩
  intro i same
  cases same
  exact .inl ⟨_, _, _, rfl⟩

end Refusal

section Runs

variable {σ : Type} {h : Host σ} {palette : Palette} {host : σ}

/-- The values of a workload have been checked, so a call of it is refused for what the allocator
does, for a span, or for a key. -/
theorem Heap.Refused.of_makes {heap : Heap σ} {n : Node} {c : Call} {e : Refusal}
    (refused : Heap.Refused h heap c e) (makes : n.Makes c) : e.Fair := by
  cases refused with
  | empty op => exact absurd rfl (makes.positive op)
  | unplaced op positive refused =>
    rcases Heap.place_error refused with ⟨a, -, rfl⟩ | ⟨-, ⟨returned, rfl⟩ | ⟨lack, rfl⟩⟩
    · exact Refusal.fair_outside _ _ _
    · exact ⟨by simp, by simp⟩
    · exact Refusal.fair_ofHost lack
  | taken op positive placed live =>
    refine ⟨by simp, ?_⟩
    intro i same
    cases same
    exact .inr ⟨_, rfl⟩
  | occupied | unoccupied => exact Refusal.fair_ofOccupancy _
  | unnamed op none_named =>
    obtain ⟨key, id, -⟩ := makes.named op
    rw [id] at none_named
    cases none_named
  | unknown op named none_found =>
    obtain ⟨key, id, shape⟩ := makes.named op
    rw [id] at named
    cases named
    refine ⟨?_, by simp⟩
    intro same
    refine AllocationKey.text_ne_unnamed ?_ (Refusal.unknownBlock.inj same)
    rcases shape with ⟨name, rfl⟩ | ⟨a, rfl⟩
    · exact .inl ⟨_, _, rfl⟩
    · exact .inr ⟨_, rfl⟩
  | unreleased => exact Refusal.fair_ofHost _
  | note op invalid =>
    obtain ⟨address, size, rfl⟩ := (makes.complete op).validate_error invalid
    exact Refusal.fair_outside _ _ _

/-! ## Whole runs -/

variable {config : CompilerConfig} {nodes : List Node} {calls : List Call}

theorem makes_of_split {front back : List Call} {c : Call} (ok : compile config nodes = .ok calls)
    (split : calls = front ++ c :: back) : ∃ n ∈ Node.preorderAll nodes, n.Makes c := by
  have member : c ∈ calls := by simp [split]
  exact (makes_of_compile_ok ok member).2

theorem inOrder_of_compile_ok (ok : compile config nodes = .ok calls) : InOrder calls := by
  obtain ⟨items, -, rfl⟩ := compile_ok ok
  exact inOrder_sortCalls _

/-- A schedule that is in order is not changed by sorting. -/
theorem compile_eq_of_inOrder {items : List Item} (valid : config.validate = .ok ())
    (checked : Item.ofNodes nodes = .ok items) (scheduled : schedule config items = calls)
    (inOrder : InOrder calls) : compile config nodes = .ok calls := by
  have sorted : sortCalls calls = calls := List.mergeSort_of_pairwise inOrder
  unfold compile
  rw [valid, checked]
  show Except.ok (sortCalls (schedule config items)) = _
  rw [scheduled, sorted]

/-- The pieces of a trace start when their calls do. -/
theorem zero_lt_time_of_framed {pieces : List Piece} (late : ∀ c ∈ calls, .zero < c.time)
    (framed : List.Forall₂ (fun call p => call.Framed p.call) calls pieces) :
    ∀ c ∈ pieces.flatMap Piece.calls, .zero < c.time := by
  induction framed with
  | nil =>
    intro c member
    cases member
  | @cons call p rest others first _ ih =>
    obtain ⟨now, later⟩ := List.forall_mem_cons.mp late
    intro c member
    rw [List.flatMap_cons] at member
    rcases List.mem_append.mp member with here | behind
    · rw [(p.time_thread c here).1, first.time_eq]
      exact now
    · exact ih later c behind

/-- A workload that compiles is fit to be run.  With an allocator that queues no annotations its run
never fails for the order of its calls, for a size, a color, an opacity or a field that is missing,
nor for a release that names no block: of all values only a span or a key is refused.  Its calls
start after time zero; what any allocator queues during the setup is at time zero, so it precedes all
calls of the workload in the trace. -/
theorem run_of_compiled (ok : compile config nodes = .ok calls) (h : Host σ) (palette : Palette)
    (host : σ) :
    (h.Silent host → ∀ e, (run h palette host calls).1 = .error e →
      e.refusal ≠ .unknownBlock "<unnamed>" ∧ ∀ i, e.refusal = .invalid i →
        (∃ address size capacity, i = .outside address size capacity) ∨
          ∃ key, i = .duplicateKey key) ∧
    (∀ c ∈ calls, .zero < c.time) ∧
    ∀ r, (run h palette host calls).1 = .ok r → ∃ pieces : List Piece,
      r.trace.calls = (Heap.queued h (Heap.start h host)).map Origin.setup.noteCall
        ++ pieces.flatMap Piece.calls ∧
      List.Forall₂ (fun call p => call.Framed p.call) calls pieces ∧
      (∀ c ∈ (Heap.queued h (Heap.start h host)).map Origin.setup.noteCall, c.time = .zero) ∧
      ∀ c ∈ pieces.flatMap Piece.calls, .zero < c.time := by
  have late : ∀ c ∈ calls, .zero < c.time := fun c member => (makes_of_compile_ok ok member).1
  refine ⟨?_, late, ?_⟩
  · intro silent e error
    rcases stops_of_run_error (inOrder_of_compile_ok ok) error with ⟨-, empty⟩ | stops
    · rw [empty]
      exact ⟨by simp, by simp⟩
    · generalize e.callIndex = index, e.refusal = refusal at stops
      cases stops with
      | setup queued =>
        have before : h.Reaches host (Heap.start h host).host := .refl
        rw [Heap.queued_eq_nil silent before] at queued
        cases queued
      | @annotated front back done call made heap heap' note i split reaches applied queued =>
        have before := (Heap.host_of_reaches reaches).setThread call.thread
        rw [Heap.queued_eq_nil silent (applied.host before)] at queued
        cases queued
      | @refused front back done call heap _ split reaches refused =>
        obtain ⟨n, -, makes⟩ := makes_of_split ok split
        obtain ⟨named, invalid⟩ := refused.of_makes makes
        exact ⟨named, invalid⟩
  · intro r succeeds
    obtain ⟨heap, reaches, -⟩ := run_ok succeeds
    obtain ⟨pieces, trace, framed, -⟩ := reaches_pieces (colors_ne_nil_of_run_ok succeeds) reaches
    refine ⟨pieces, trace, framed, ?_, zero_lt_time_of_framed late framed⟩
    intro c member
    obtain ⟨note, -, rfl⟩ := List.mem_map.mp member
    rfl

/-- A thread that uses the name of a block in use. -/
def repeatedName : List Node :=
  [(Node.malloc 2).attr "id" "a", (Node.malloc 2).attr "id" " a "]

def repeatedCalls : List Call :=
  [⟨.malloc 2 none none, some (.inThread 0 "a"), none, 0, ⟨1⟩, ⟨500000⟩⟩,
    ⟨.malloc 2 none none, some (.inThread 0 "a"), none, 0, ⟨500001⟩, ⟨500000⟩⟩]

theorem compile_repeatedName : compile {} repeatedName = .ok repeatedCalls := by
  have checked : Item.ofNodes repeatedName = .ok
      [.step ⟨.malloc 2 none none (some "a"), none⟩, .step ⟨.malloc 2 none none (some "a"), none⟩] :=
    rfl
  refine compile_eq_of_inOrder rfl checked (by cbv) ?_
  exact inOrder_of_firstUnsortedFrom (show firstUnsorted repeatedCalls = none by decide)

theorem run_of_compiled_of_repeatedName :
    compile {} repeatedName = .ok repeatedCalls ∧
      ∃ e, (run (FirstFit.host 8) .default (FirstFit.empty 8) repeatedCalls).1 = .error e ∧
        e.refusal = .invalid (.duplicateKey "0-a") ∧ e.refusal ≠ .unknownBlock "<unnamed>" ∧
        ∀ c ∈ repeatedCalls, .zero < c.time := by
  obtain ⟨logs, failed⟩ : ∃ logs,
      (run (FirstFit.host 8) .default (FirstFit.empty 8) repeatedCalls).1
        = .error ⟨.invalid (.duplicateKey "0-a"), some 1, logs⟩ := ⟨_, rfl⟩
  obtain ⟨fails, late, -⟩ :=
    run_of_compiled compile_repeatedName (FirstFit.host 8) .default (FirstFit.empty 8)
  have silent : (FirstFit.host 8).Silent (FirstFit.empty 8) := FirstFit.Quiet.silent ⟨rfl, rfl⟩ 8
  exact ⟨compile_repeatedName, _, failed, rfl, (fails silent _ failed).1, late⟩

end Runs

end Heapscope
