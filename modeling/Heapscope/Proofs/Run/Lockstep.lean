import Heapscope.Proofs.Run.Soundness

/-!
# Allocators in lockstep

Two allocators are in lockstep when a relation of their states is kept by whatever a run does with
them, with the same replies on both sides.  A run cannot tell them apart: it has the same result
with both.  Runs only release blocks, and blocks lie in the address space, so nothing is asked of
the release of an address beyond it.

* `Host.Lockstep` -- such relations;
* `Heap.step_lockstep`, `Heap.steps_lockstep` -- one call and many;
* `run_lockstep` -- whole runs.
-/

namespace Heapscope

variable {α σ τ : Type}

/-- The same reply on both sides, with states that are related. -/
def Paired (R : σ → τ → Prop) (p : α × σ) (q : α × τ) : Prop := p.1 = q.1 ∧ R p.2 q.2

theorem Paired.exists_reply {R : σ → τ → Prop} {p : α × σ} {q : α × τ} (paired : Paired R p q) :
    ∃ a s t, p = (a, s) ∧ q = (a, t) ∧ R s t :=
  ⟨p.1, p.2, q.2, rfl, Prod.ext paired.1.symm rfl, paired.2⟩

/-- A relation of states that everything done with two allocators keeps. -/
structure Host.Lockstep (h : Host σ) (k : Host τ) (R : σ → τ → Prop) : Prop where
  capacity : k.capacity = h.capacity
  setThread : ∀ {s t}, R s t → ∀ thread, R (h.setThread thread s) (k.setThread thread t)
  malloc : ∀ {s t}, R s t → ∀ size, Paired R (h.malloc size s) (k.malloc size t)
  free : ∀ {s t}, R s t → ∀ {address}, address < h.capacity →
    Paired R (h.free address s) (k.free address t)
  drainNotes : ∀ {s t}, R s t → Paired R (h.drainNotes s) (k.drainNotes t)
  drainLogs : ∀ {s t}, R s t → Paired R (h.drainLogs s) (k.drainLogs t)

/-- Memories that differ in the states of their allocators, which are related. -/
structure Heap.Beside (R : σ → τ → Prop) (heap : Heap σ) (heap' : Heap τ) : Prop where
  host : R heap.host heap'.host
  bytes : heap'.bytes = heap.bytes
  live : heap'.live = heap.live
  uncolored : heap'.uncolored = heap.uncolored

/-- Outcomes that differ in the states of the allocators, which are related. -/
structure Outcome.Beside (R : σ → τ → Prop) (o : Outcome σ) (o' : Outcome τ) : Prop where
  heap : o.heap.Beside R o'.heap
  logs : o'.logs = o.logs
  result : o'.result = o.result

/-- An outcome that is beside another is finished alike. -/
theorem Outcome.Beside.finish {R : σ → τ → Prop} {o : Outcome σ} {o' : Outcome τ}
    (beside : o.Beside R o') : o.finish = o'.finish := by
  unfold Outcome.finish
  rw [beside.result, beside.logs, beside.heap.bytes, beside.heap.live]

namespace Heap

variable {h : Host σ} {k : Host τ} {R : σ → τ → Prop}
variable {heap : Heap σ} {heap' : Heap τ}

/-! ## One call -/

/-- Memories stay beside each other when only the states of the allocators change. -/
theorem Beside.withHost (beside : heap.Beside R heap') {s : σ} {t : τ} (related : R s t) :
    Beside R { heap with host := s } { heap' with host := t } :=
  ⟨related, beside.bytes, beside.live, beside.uncolored⟩

theorem place_lockstep (lockstep : h.Lockstep k R) {s : σ} {t : τ} (related : R s t)
    (size : UInt32) (pinned : Option UInt32) :
    Paired R (place h size pinned s) (place k size pinned t) := by
  unfold place
  cases pinned with
  | some address =>
    simp only [lockstep.capacity]
    cases checkSpan address size h.capacity <;> exact ⟨rfl, related⟩
  | none =>
    obtain ⟨reply, _, _, told, told', related'⟩ := (lockstep.malloc related size).exists_reply
    simp only [told, told', lockstep.capacity]
    cases reply <;> exact ⟨rfl, related'⟩

/-- Memories that are beside each other refuse a claim alike, or take the span into use alike. -/
theorem claim_lockstep (palette : Palette) (beside : heap.Beside R heap') (address size : UInt32)
    (pinned : Bool) (color : Option Color) (id : Option AllocationKey) :
    (∃ e, claim palette heap address size pinned color id = .error e ∧
      claim palette heap' address size pinned color id = .error e) ∨
    ∃ key block after after',
      claim palette heap address size pinned color id = .ok (key, block, after) ∧
      claim palette heap' address size pinned color id = .ok (key, block, after') ∧
      after.Beside R after' := by
  unfold claim
  simp only [beside.bytes, beside.live, beside.uncolored]
  split
  · exact .inl ⟨_, rfl, rfl⟩
  · cases heap.bytes.mark address size with
    | error fault => exact .inl ⟨_, rfl, rfl⟩
    | ok bytes => exact .inr ⟨_, _, _, _, rfl, rfl, ⟨beside.host, rfl, rfl, rfl⟩⟩

theorem malloc_lockstep (lockstep : h.Lockstep k R) (palette : Palette)
    (beside : heap.Beside R heap') (size : UInt32) (pinned : Option UInt32) (color : Option Color)
    (id : Option AllocationKey) :
    Paired (Beside R) (heap.malloc h palette size pinned color id)
      (heap'.malloc k palette size pinned color id) := by
  unfold malloc
  by_cases empty : size = 0
  · rw [if_pos empty, if_pos empty]
    exact ⟨rfl, beside⟩
  · rw [if_neg empty, if_neg empty]
    obtain ⟨reply, _, _, placed, placed', related⟩ :=
      (place_lockstep lockstep beside.host size pinned).exists_reply
    rw [placed, placed']
    cases reply with
    | error e => exact ⟨rfl, beside.withHost related⟩
    | ok address =>
      simp only
      rcases claim_lockstep palette (beside.withHost related) address size
        pinned.isSome color id with ⟨e, refused, refused'⟩ | ⟨key, block, _, _, made, made', after⟩
      · rw [refused, refused']
        exact ⟨rfl, beside.withHost related⟩
      · rw [made, made']
        exact ⟨rfl, after⟩

/-- Releases of blocks, which lie in the address space. -/
theorem free_lockstep (lockstep : h.Lockstep k R) (beside : heap.Beside R heap')
    (inside : ∀ e ∈ heap.live.entries, e.2.Inside h.capacity) (key : AllocationKey) :
    Paired (Beside R) (heap.free h key) (heap'.free k key) := by
  unfold free
  simp only [beside.live, beside.bytes]
  cases found : heap.live.find? key with
  | none => exact ⟨rfl, beside⟩
  | some block =>
    simp only
    cases heap.bytes.clear block.address block.size with
    | error fault => exact ⟨rfl, beside⟩
    | ok bytes =>
      simp only
      cases block.pinned with
      | true => exact ⟨rfl, ⟨beside.host, rfl, rfl, beside.uncolored⟩⟩
      | false =>
        obtain ⟨positive, fits⟩ : block.Inside h.capacity :=
          inside _ (OrderedMap.find?_eq_some_iff.mp found)
        have lies : block.address < h.capacity := by
          rw [UInt32.lt_iff_toNat_lt]
          omega
        obtain ⟨reply, _, _, told, told', related⟩ := (lockstep.free beside.host lies).exists_reply
        simp only [Bool.false_eq_true, if_false, told, told']
        cases reply with
        | error e => exact ⟨rfl, ⟨related, rfl, rfl, beside.uncolored⟩⟩
        | ok _ => exact ⟨rfl, ⟨related, rfl, rfl, beside.uncolored⟩⟩

theorem apply_lockstep (lockstep : h.Lockstep k R) (palette : Palette)
    (beside : heap.Beside R heap') (inside : ∀ e ∈ heap.live.entries, e.2.Inside h.capacity)
    (call : Call) :
    Paired (Beside R) (heap.apply h palette call) (heap'.apply k palette call) := by
  unfold apply
  cases call.op with
  | malloc size pinned color =>
    obtain ⟨reply, _, _, made, made', after⟩ :=
      (malloc_lockstep lockstep palette beside size pinned color call.id).exists_reply
    simp only
    rw [made, made']
    cases reply <;> exact ⟨rfl, after⟩
  | free address color =>
    simp only
    cases call.id.or (address.map .address) with
    | none => exact ⟨rfl, beside⟩
    | some key =>
      obtain ⟨reply, _, _, freed, freed', after⟩ :=
        (free_lockstep lockstep beside inside key).exists_reply
      simp only [freed, freed']
      cases reply <;> exact ⟨rfl, after⟩
  | sleep => exact ⟨rfl, beside⟩
  | annotate note =>
    simp only [lockstep.capacity]
    cases note.validate h.capacity <;> exact ⟨rfl, beside⟩

theorem collect_lockstep (lockstep : h.Lockstep k R) (beside : heap.Beside R heap') (o : Origin)
    (applied : Except Refusal (List Call)) :
    (heap.collect h o applied).Beside R (heap'.collect k o applied) := by
  obtain ⟨logs, afterLogs⟩ := lockstep.drainLogs beside.host
  unfold collect
  simp only [← logs]
  cases applied with
  | error e => exact ⟨beside.withHost afterLogs, rfl, rfl⟩
  | ok calls =>
    obtain ⟨notes, afterNotes⟩ := lockstep.drainNotes afterLogs
    simp only [← notes, lockstep.capacity]
    cases noteCalls h.capacity o (h.drainNotes (h.drainLogs heap.host).2).1 <;>
      exact ⟨beside.withHost afterNotes, rfl, rfl⟩

theorem step_lockstep (lockstep : h.Lockstep k R) (palette : Palette)
    (beside : heap.Beside R heap') (inside : ∀ e ∈ heap.live.entries, e.2.Inside h.capacity)
    (index : Nat) (call : Call) :
    (heap.step h palette index call).Beside R (heap'.step k palette index call) := by
  have told := beside.withHost (lockstep.setThread beside.host call.thread)
  obtain ⟨reply, after⟩ := apply_lockstep lockstep palette told inside call
  unfold step
  simp only
  rw [← reply]
  exact collect_lockstep lockstep after _ _

/-! ## Many calls -/

theorem steps_lockstep (lockstep : h.Lockstep k R) (palette : Palette) {done : List Call}
    (sound : Sound h.capacity done heap) (beside : heap.Beside R heap') (index : Nat)
    (calls : List Call) :
    (heap.steps h palette index calls).Beside R (heap'.steps k palette index calls) := by
  -- the invariant of memory goes along, since it keeps blocks in the address space
  induction calls generalizing heap heap' index done with
  | nil => exact ⟨beside, rfl, rfl⟩
  | cons call rest ih =>
    have first := step_lockstep lockstep palette beside (fun _ => sound.inside) index call
    rw [steps, steps, first.result]
    cases ok : (heap.step h palette index call).result with
    | error e => exact ⟨first.heap, first.logs, rfl⟩
    | ok calls =>
      have more := ih (sound.step ok) first.heap (index + 1)
      refine ⟨more.heap, ?_, ?_⟩
      · simp only [first.logs, more.logs]
      · simp only [more.result]

end Heap

/-! ## Whole runs -/

variable {h : Host σ} {k : Host τ} {R : σ → τ → Prop} {s : σ} {t : τ}

theorem runCalls_lockstep (lockstep : h.Lockstep k R) (related : R s t) (palette : Palette)
    (calls : List Call) :
    (runCalls h palette s calls).Beside R (runCalls k palette t calls) := by
  have start : (Heap.start h s).Beside R (Heap.start k t) :=
    ⟨related, by rw [Heap.start, lockstep.capacity]; rfl, rfl, rfl⟩
  have first : (Heap.setup h s).Beside R (Heap.setup k t) :=
    Heap.collect_lockstep lockstep start _ _
  rw [runCalls_eq, runCalls_eq, first.result]
  cases noted : (Heap.setup h s).result with
  | error e => exact ⟨first.heap, first.logs, rfl⟩
  | ok notes =>
    simp only
    cases firstUnsorted calls with
    | some index => exact ⟨first.heap, first.logs, rfl⟩
    | none =>
      have rest := Heap.steps_lockstep lockstep palette (Heap.Sound.setup noted) first.heap 0 calls
      refine ⟨rest.heap, ?_, ?_⟩
      · simp only [first.logs, rest.logs]
      · simp only [rest.result]

/-- A run has the same result with allocators in lockstep, and leaves them in states that are
related. -/
theorem run_lockstep (lockstep : h.Lockstep k R) (related : R s t) (palette : Palette)
    (calls : List Call) : Paired R (run h palette s calls) (run k palette t calls) := by
  unfold run
  split
  · exact ⟨rfl, related⟩
  · have outcome := runCalls_lockstep lockstep related palette calls
    exact ⟨outcome.finish, outcome.heap.host⟩

end Heapscope
