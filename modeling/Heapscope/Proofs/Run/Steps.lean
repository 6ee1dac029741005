import Heapscope.Proofs.Bounds
import Heapscope.Proofs.Except

/-!
# What a call does when it is not refused

Each statement about runs rests on the same few facts: what a call that is made leaves in memory,
what is collected after it, and that a run goes from call to call.

* `Applied` -- a call that is made, by its operation, with memory afterwards;
* `step_ok` -- a step is such a call followed by the annotations that the allocator queued;
* `steps_invariant`, `steps_error` -- what every step keeps holds after a run, and a run that is
  refused is refused at a step.
-/

namespace Heapscope

namespace Heap

variable {σ : Type} {h : Host σ} {palette : Palette}

/-! ## One call -/

/-- A block is placed inside the address space, whatever the allocator replies. -/
theorem place_fits {size address : UInt32} {pinned : Option UInt32} {host host' : σ}
    (placed : place h size pinned host = (.ok address, host')) :
    address.toNat + size.toNat ≤ h.capacity.toNat := by
  unfold place at placed
  -- a pinned address is checked as the call gives it, any other as the allocator returned it
  cases pinned with
  | some a =>
    simp only at placed
    split at placed
    · rename_i checked
      cases placed
      exact checkSpan_ok_iff.mp checked
    · cases placed
  | none =>
    simp only at placed
    split at placed
    · rename_i accepted _
      obtain ⟨ok, -⟩ := Prod.mk.inj placed
      exact (acceptReturned_ok_iff.mp ok).2
    · cases placed

/-- A span is claimed when its key names no live block and its bytes are free. -/
theorem claim_ok {heap heap' : Heap σ} {address size : UInt32} {pinned : Bool}
    {color : Option Color} {id : Option AllocationKey} {key : AllocationKey} {block : Block}
    (ok : claim palette heap address size pinned color id = .ok (key, block, heap')) :
    key = id.getD (.address address) ∧ heap.live.contains key = false ∧
      block = ⟨address, size, color.getD (palette.color heap.uncolored), pinned⟩ ∧
      ∃ bytes, heap.bytes.mark address size = .ok bytes ∧
        heap' = { heap with
          bytes
          live := heap.live.insert key block
          uncolored := if color.isNone then heap.uncolored + 1 else heap.uncolored } := by
  unfold claim at ok
  simp only at ok
  split at ok
  · cases ok
  · rename_i fresh
    split at ok
    · cases ok
    · rename_i bytes marked
      cases ok
      exact ⟨rfl, Bool.not_eq_true _ ▸ fresh, rfl, bytes, marked, rfl⟩

/-- A span whose key is new and whose bytes are free is claimed. -/
theorem claim_of_fresh {heap : Heap σ} {address size : UInt32} {pinned : Bool}
    {color : Option Color} {id : Option AllocationKey} {block : Block} {bytes : Occupancy}
    (fresh : heap.live.contains (id.getD (.address address)) = false)
    (marked : heap.bytes.mark address size = .ok bytes)
    (made : block = ⟨address, size, color.getD (palette.color heap.uncolored), pinned⟩) :
    claim palette heap address size pinned color id = .ok (id.getD (.address address), block,
      { heap with
        bytes
        live := heap.live.insert (id.getD (.address address)) block
        uncolored := if color.isNone then heap.uncolored + 1 else heap.uncolored }) := by
  subst made
  unfold claim
  simp only [fresh, marked, Bool.false_eq_true, if_false]

theorem malloc_ok {heap heap' : Heap σ} {size : UInt32} {pinned : Option UInt32}
    {color : Option Color} {id : Option AllocationKey} {key : AllocationKey} {block : Block}
    (ok : heap.malloc h palette size pinned color id = (.ok (key, block), heap')) :
    size ≠ 0 ∧ ∃ address host, place h size pinned heap.host = (.ok address, host) ∧
      claim palette { heap with host } address size pinned.isSome color id
        = .ok (key, block, heap') := by
  unfold malloc at ok
  split at ok
  · cases ok
  · rename_i positive
    split at ok
    · cases ok
    · rename_i address host placed
      simp only at ok
      split at ok
      · cases ok
      · rename_i claimed
        cases ok
        exact ⟨positive, address, host, placed, claimed⟩

/-- A block is released when its key names it, its bytes are in use and the allocator agrees. -/
theorem free_ok {heap heap' : Heap σ} {key : AllocationKey} {block : Block}
    (ok : heap.free h key = (.ok block, heap')) :
    heap.live.find? key = some block ∧
      ∃ bytes host, heap.bytes.clear block.address block.size = .ok bytes ∧
        (if block.pinned then (.ok (), heap.host) else h.free block.address heap.host)
          = (.ok (), host) ∧
        heap' = { heap with host, bytes, live := heap.live.erase key } := by
  unfold free at ok
  split at ok
  · cases ok
  · rename_i found
    split at ok
    · cases ok
    · rename_i bytes cleared
      simp only at ok
      split at ok
      · cases ok
      · rename_i told
        cases ok
        exact ⟨found, bytes, _, cleared, Prod.ext told rfl, rfl⟩

/-- What a call that is not refused does to memory, and the call as it enters the trace. -/
inductive Applied (h : Host σ) (palette : Palette) (heap : Heap σ) (call : Call) :
    Call → Heap σ → Prop
  | malloc {size address : UInt32} {pinned : Option UInt32} {color : Option Color}
      {key : AllocationKey} {block : Block} {host : σ} {bytes : Occupancy}
      (op : call.op = .malloc size pinned color) (positive : size ≠ 0)
      (placed : place h size pinned heap.host = (.ok address, host))
      (named : key = call.id.getD (.address address))
      (fresh : heap.live.contains key = false)
      (marked : heap.bytes.mark address size = .ok bytes)
      (made : block =
        ⟨address, size, color.getD (palette.color heap.uncolored), pinned.isSome⟩) :
      Applied h palette heap call
        { call with
          op := .malloc size pinned (some block.color), id := some key, result := some address }
        { host, bytes, live := heap.live.insert key block,
          uncolored := if color.isNone then heap.uncolored + 1 else heap.uncolored }
  | free {address : Option UInt32} {color : Option Color} {key : AllocationKey} {block : Block}
      {host : σ} {bytes : Occupancy}
      (op : call.op = .free address color)
      (named : call.id.or (address.map .address) = some key)
      (found : heap.live.find? key = some block)
      (cleared : heap.bytes.clear block.address block.size = .ok bytes)
      (told : (if block.pinned then (.ok (), heap.host) else h.free block.address heap.host)
        = (.ok (), host)) :
      Applied h palette heap call
        { call with
          op := .free (some block.address) (some (color.getD block.color)), id := some key }
        { heap with host, bytes, live := heap.live.erase key }
  | sleep (op : call.op = .sleep) : Applied h palette heap call call heap
  | annotate {note : Note} (op : call.op = .annotate note)
      (valid : note.validate h.capacity = .ok ()) : Applied h palette heap call call heap

/-- A call that is not refused does one of these. -/
theorem applied_of_apply_ok {heap heap' : Heap σ} {call done : Call}
    (ok : heap.apply h palette call = (.ok done, heap')) :
    Applied h palette heap call done heap' := by
  unfold apply at ok
  cases op : call.op with
  | malloc size pinned color =>
    simp only [op] at ok
    split at ok
    · cases ok
    · rename_i made
      cases ok
      obtain ⟨positive, address, host, placed, claimed⟩ := malloc_ok made
      obtain ⟨named, fresh, block_eq, bytes, marked, rfl⟩ := claim_ok claimed
      subst block_eq
      exact .malloc op positive placed named fresh marked rfl
  | free address color =>
    simp only [op] at ok
    split at ok
    · cases ok
    · rename_i key named
      split at ok
      · cases ok
      · rename_i made
        cases ok
        obtain ⟨found, bytes, host, cleared, told, rfl⟩ := free_ok made
        exact .free op named found cleared told
  | sleep =>
    simp only [op] at ok
    cases ok
    exact .sleep op
  | annotate note =>
    simp only [op] at ok
    split at ok
    · rename_i valid
      cases ok
      exact .annotate op valid
    · cases ok

/-- A call that does one of these is not refused. -/
theorem apply_of_applied {heap heap' : Heap σ} {call done : Call}
    (applied : Applied h palette heap call done heap') :
    heap.apply h palette call = (.ok done, heap') := by
  unfold apply
  cases applied with
  | @malloc size address pinned color key block host bytes op positive placed named fresh marked
      made =>
    subst named
    have claimed : claim palette { heap with host } address size pinned.isSome color call.id = _ :=
      claim_of_fresh fresh marked made
    simp only [op, Heap.malloc, if_neg positive, placed, claimed]
    rw [made]
  | free op named found cleared told => simp only [op, named, Heap.free, found, cleared, told]
  | sleep op => simp only [op]
  | annotate op valid => simp only [op, valid]

/-! ## Collecting -/

/-- Annotations become calls when all of them are valid. -/
theorem noteCalls_ok_iff {capacity : UInt32} {o : Origin} {notes : List Note}
    {calls : List Call} :
    noteCalls capacity o notes = .ok calls
      ↔ (∀ n ∈ notes, n.validate capacity = .ok ()) ∧ calls = notes.map o.noteCall := by
  unfold noteCalls
  induction notes generalizing calls with
  | nil => simp [pure, Except.pure, eq_comm]
  | cons note rest ih =>
    rw [List.mapM_cons]
    cases valid : note.validate capacity with
    | error e => simp [bind, Except.bind, Except.map, valid]
    | ok u =>
      simp only [Except.map, bind, Except.bind] at ih ⊢
      split
      · rename_i e more
        constructor
        · intro absurd
          cases absurd
        · rintro ⟨all, -⟩
          have tail := ih.mpr ⟨fun n hn => all n (List.mem_cons_of_mem _ hn), rfl⟩
          rw [more] at tail
          cases tail
      · rename_i made more
        obtain ⟨all, rfl⟩ := ih.mp more
        simp only [pure, Except.pure, Except.ok.injEq, List.map_cons]
        constructor
        · rintro rfl
          exact ⟨List.forall_mem_cons.mpr ⟨valid, all⟩, rfl⟩
        · rintro ⟨-, rfl⟩
          rfl

theorem noteCalls_error {capacity : UInt32} {o : Origin} {notes : List Note} {i : Invalid}
    (error : noteCalls capacity o notes = .error i) :
    ∃ note ∈ notes, note.validate capacity = .error i := by
  unfold noteCalls at error
  induction notes with
  | nil => cases error
  | cons note rest ih =>
    rw [List.mapM_cons] at error
    cases valid : note.validate capacity with
    | error i' =>
      rw [valid] at error
      cases error
      exact ⟨note, List.mem_cons_self, valid⟩
    | ok =>
      rw [valid] at error
      obtain ⟨note', member, invalid⟩ := ih (error_of_map_error error)
      exact ⟨note', List.mem_cons_of_mem _ member, invalid⟩

variable {heap : Heap σ} {o : Origin} {applied : Except Refusal (List Call)}

/-- The annotations that are queued in memory, behind the messages. -/
def queued (h : Host σ) (heap : Heap σ) : List Note := (h.drainNotes (h.drainLogs heap.host).2).1

@[simp] theorem collect_bytes : (heap.collect h o applied).heap.bytes = heap.bytes := by
  unfold collect
  cases applied with
  | error e => rfl
  | ok calls => simp only; split <;> rfl

@[simp] theorem collect_live : (heap.collect h o applied).heap.live = heap.live := by
  unfold collect
  cases applied with
  | error e => rfl
  | ok calls => simp only; split <;> rfl

@[simp] theorem collect_uncolored :
    (heap.collect h o applied).heap.uncolored = heap.uncolored := by
  unfold collect
  cases applied with
  | error e => rfl
  | ok calls => simp only; split <;> rfl

theorem collect_host (calls : List Call) : (heap.collect h o (.ok calls)).heap.host
    = (h.drainNotes (h.drainLogs heap.host).2).2 := by
  unfold collect
  simp only
  split <;> rfl

/-- Collecting succeeds after a call that was not refused, when all annotations are valid. -/
theorem collect_ok {calls : List Call} (ok : (heap.collect h o applied).result = .ok calls) :
    ∃ made, applied = .ok made ∧ (∀ n ∈ queued h heap, n.validate h.capacity = .ok ()) ∧
      calls = made ++ (queued h heap).map o.noteCall := by
  unfold collect at ok
  cases applied with
  | error e => cases ok
  | ok made =>
    simp only at ok
    split at ok
    · cases ok
    · rename_i more noted
      cases ok
      obtain ⟨valid, rfl⟩ := noteCalls_ok_iff.mp noted
      exact ⟨made, rfl, valid, rfl⟩

/-- Collecting fails with the refusal of the call, or with an annotation that is not valid. -/
theorem collect_refused {index : Option Nat} {e : Refusal}
    (error : (heap.collect h o applied).result = .error (index, e)) :
    index = o.callIndex ∧ (applied = .error e ∨ ∃ made, applied = .ok made ∧
      ∃ note ∈ queued h heap, ∃ i, note.validate h.capacity = .error i ∧ e = .invalid i) := by
  unfold collect at error
  cases applied with
  | error e' =>
    cases error
    exact ⟨rfl, .inl rfl⟩
  | ok made =>
    simp only at error
    split at error
    · rename_i i noted
      cases error
      obtain ⟨note, member, invalid⟩ := noteCalls_error noted
      exact ⟨rfl, .inr ⟨made, rfl, note, member, i, invalid, rfl⟩⟩
    · cases error

theorem collect_error {index : Option Nat} {e : Refusal}
    (error : (heap.collect h o applied).result = .error (index, e)) :
    index = o.callIndex ∧ (applied = .error e ∨ ∃ i, e = .invalid i) := by
  obtain ⟨index, refused | ⟨-, -, -, -, i, -, invalid⟩⟩ := collect_refused error
  · exact ⟨index, .inl refused⟩
  · exact ⟨index, .inr ⟨i, invalid⟩⟩

/-! ## Steps -/

/-- A step that is not refused is a call that is made, then the annotations that were queued. -/
theorem step_ok {index : Nat} {call : Call} {calls : List Call}
    (ok : (heap.step h palette index call).result = .ok calls) :
    ∃ done heap', Applied h palette { heap with host := h.setThread call.thread heap.host } call
        done heap' ∧
      (∀ n ∈ queued h heap', n.validate h.capacity = .ok ()) ∧
      calls = done :: (queued h heap').map (Origin.ofCall index call).noteCall ∧
      (heap.step h palette index call).heap.bytes = heap'.bytes ∧
      (heap.step h palette index call).heap.live = heap'.live ∧
      (heap.step h palette index call).heap.uncolored = heap'.uncolored := by
  unfold step at ok ⊢
  simp only at ok ⊢
  generalize eq : apply h palette { heap with host := h.setThread call.thread heap.host } call
    = out at ok ⊢
  obtain ⟨result, heap'⟩ := out
  obtain ⟨made, applied, valid, rfl⟩ := collect_ok ok
  cases result with
  | error e => cases applied
  | ok done =>
    cases applied
    exact ⟨done, heap', applied_of_apply_ok eq, valid, rfl, collect_bytes, collect_live,
      collect_uncolored⟩

/-- A step whose call is made is what is collected after it. -/
theorem step_of_applied {heap' : Heap σ} {call done : Call} (index : Nat)
    (applied : Applied h palette { heap with host := h.setThread call.thread heap.host } call done
      heap') :
    heap.step h palette index call = heap'.collect h (.ofCall index call) (.ok [done]) := by
  unfold step
  simp only [apply_of_applied applied]
  rfl

/-- A run goes on from a step that is not refused. -/
theorem steps_cons_of_ok {index : Nat} {call : Call} {calls : List Call} (rest : List Call)
    (ok : (heap.step h palette index call).result = .ok calls) :
    (heap.steps h palette index (call :: rest)).heap
        = ((heap.step h palette index call).heap.steps h palette (index + 1) rest).heap ∧
      (heap.steps h palette index (call :: rest)).result
        = ((heap.step h palette index call).heap.steps h palette (index + 1) rest).result.map
            (calls ++ ·) := by
  rw [steps, ok]
  exact ⟨rfl, rfl⟩

theorem steps_cons_of_error {index : Nat} {call : Call} {rest : List Call}
    {e : Option Nat × Refusal} (error : (heap.step h palette index call).result = .error e) :
    (heap.steps h palette index (call :: rest)).result = .error e := by
  rw [steps]
  simp only [error]

/-- What holds before a run and is kept by every step of its calls holds after it. -/
theorem steps_invariant {Inv : List Call → Heap σ → Prop} {P : Call → Prop}
    (kept : ∀ {done heap index call calls}, P call → Inv done heap →
      (heap.step h palette index call).result = .ok calls →
      Inv (done ++ calls) (heap.step h palette index call).heap)
    {done calls made : List Call} {index : Nat} (all : ∀ c ∈ calls, P c) (before : Inv done heap)
    (ok : (heap.steps h palette index calls).result = .ok made) :
    Inv (done ++ made) (heap.steps h palette index calls).heap := by
  -- the calls in `done` are those of the steps behind us, so each step moves its calls there
  induction calls generalizing heap done index made with
  | nil =>
    cases ok
    rw [List.append_nil]
    exact before
  | cons call rest ih =>
    obtain ⟨this, others⟩ := List.forall_mem_cons.mp all
    cases first : (heap.step h palette index call).result with
    | error e =>
      rw [steps_cons_of_error first] at ok
      cases ok
    | ok calls =>
      obtain ⟨heap_eq, result_eq⟩ := steps_cons_of_ok rest first
      rw [result_eq] at ok
      obtain ⟨tail, more, rfl⟩ := exists_of_map_ok ok
      rw [heap_eq, ← List.append_assoc]
      exact ih others (kept this before first) more

/-- A run that is refused is refused at one of its calls, after steps that were not. -/
theorem steps_error {calls : List Call} {index : Nat} {e : Option Nat × Refusal}
    (error : (heap.steps h palette index calls).result = .error e) :
    ∃ front call back made, calls = front ++ call :: back ∧
      (heap.steps h palette index front).result = .ok made ∧
      ((heap.steps h palette index front).heap.step h palette (index + front.length) call).result
        = .error e := by
  induction calls generalizing heap index with
  | nil => cases error
  | cons call rest ih =>
    cases first : (heap.step h palette index call).result with
    | error e' =>
      rw [steps_cons_of_error first] at error
      cases error
      exact ⟨[], call, rest, [], rfl, rfl, first⟩
    | ok calls =>
      rw [(steps_cons_of_ok rest first).2] at error
      obtain ⟨front, call', back, made, rfl, ok, refused⟩ := ih (error_of_map_error error)
      obtain ⟨heap_eq, result_eq⟩ := steps_cons_of_ok front first
      -- the refused call is found behind the first step, so its index counts that step too
      refine ⟨call :: front, call', back, calls ++ made, rfl, ?_, ?_⟩
      · rw [result_eq, ok]
        rfl
      · rw [heap_eq, List.length_cons, Nat.add_comm front.length 1, ← Nat.add_assoc]
        exact refused

/-! ## Whole runs -/

/-- What is collected before the first call. -/
def setup (h : Host σ) (host : σ) : Outcome σ := (start h host).collect h .setup (.ok [])

/-- A setup with valid annotations is not refused. -/
theorem setup_ok_of_valid {host : σ}
    (valid : ∀ note ∈ queued h (start h host), note.validate h.capacity = .ok ()) :
    (setup h host).result = .ok ((queued h (start h host)).map Origin.setup.noteCall) := by
  have noted : noteCalls h.capacity .setup (h.drainNotes (h.drainLogs (start h host).host).2).1
      = .ok _ := noteCalls_ok_iff.mpr ⟨valid, rfl⟩
  unfold setup collect
  simp only [noted]
  rfl

/-- Memory after the setup and some calls of a run, none of which was refused, with the calls of
the trace up to there. -/
def Reaches (h : Host σ) (palette : Palette) (host : σ) (calls done : List Call) (heap : Heap σ) :
    Prop :=
  ∃ notes made, (setup h host).result = .ok notes ∧
    ((setup h host).heap.steps h palette 0 calls).result = .ok made ∧
    done = notes ++ made ∧ heap = ((setup h host).heap.steps h palette 0 calls).heap

/-- What holds of empty memory, and is kept by the setup and by every step of its calls, holds of
memory throughout a run. -/
theorem reaches_invariant_of_forall (Inv : List Call → Heap σ → Prop) {P : Call → Prop} {host : σ}
    (start : ∀ notes, (setup h host).result = .ok notes → Inv notes (setup h host).heap)
    (kept : ∀ {done heap index call calls}, P call → Inv done heap →
      (heap.step h palette index call).result = .ok calls →
      Inv (done ++ calls) (heap.step h palette index call).heap)
    {calls done : List Call} (all : ∀ c ∈ calls, P c)
    (reaches : Reaches h palette host calls done heap) : Inv done heap := by
  obtain ⟨notes, made, noted, stepped, rfl, rfl⟩ := reaches
  exact steps_invariant kept all (start notes noted) stepped

/-- What is kept by every step of whatever call holds throughout every run. -/
theorem reaches_invariant {Inv : List Call → Heap σ → Prop} {host : σ}
    (start : ∀ notes, (setup h host).result = .ok notes → Inv notes (setup h host).heap)
    (kept : ∀ {done heap index call calls}, Inv done heap →
      (heap.step h palette index call).result = .ok calls →
      Inv (done ++ calls) (heap.step h palette index call).heap)
    {calls done : List Call} (reaches : Reaches h palette host calls done heap) :
    Inv done heap :=
  reaches_invariant_of_forall Inv start (fun _ => kept) (fun _ _ => trivial) reaches

end Heap

section Runs

variable {σ : Type} {h : Host σ} {palette : Palette} {host : σ} {calls : List Call}

/-- A run collects what the setup queued, looks at the order of the calls, and makes them. -/
theorem runCalls_eq : runCalls h palette host calls =
    match (Heap.setup h host).result with
    | .error e => ⟨(Heap.setup h host).heap, (Heap.setup h host).logs, .error e⟩
    | .ok notes =>
      match firstUnsorted calls with
      | some index =>
        ⟨(Heap.setup h host).heap, (Heap.setup h host).logs,
          .error (some index, .invalid (.unsorted index))⟩
      | none =>
        let rest := (Heap.setup h host).heap.steps h palette 0 calls
        ⟨rest.heap, (Heap.setup h host).logs ++ rest.logs, rest.result.map (notes ++ ·)⟩ := rfl

/-- Behind a setup that is not refused, a run makes the calls of a sorted list. -/
theorem runCalls_of_inOrder {notes : List Call} (noted : (Heap.setup h host).result = .ok notes)
    (sorted : InOrder calls) : runCalls h palette host calls =
      ⟨((Heap.setup h host).heap.steps h palette 0 calls).heap,
        (Heap.setup h host).logs ++ ((Heap.setup h host).heap.steps h palette 0 calls).logs,
        ((Heap.setup h host).heap.steps h palette 0 calls).result.map (notes ++ ·)⟩ := by
  have none_unsorted : firstUnsorted calls = none := firstUnsortedFrom_of_inOrder sorted 0
  rw [runCalls_eq, noted, none_unsorted]

theorem runCalls_ok {done : List Call} (ok : (runCalls h palette host calls).result = .ok done) :
    Heap.Reaches h palette host calls done (runCalls h palette host calls).heap ∧
      firstUnsorted calls = none := by
  rw [runCalls_eq] at ok ⊢
  cases noted : (Heap.setup h host).result with
  | error e =>
    rw [noted] at ok
    cases ok
  | ok notes =>
    cases sorted : firstUnsorted calls with
    | some index =>
      rw [noted, sorted] at ok
      cases ok
    | none =>
      rw [noted, sorted] at ok
      simp only at ok ⊢
      cases stepped : ((Heap.setup h host).heap.steps h palette 0 calls).result with
      | error e =>
        rw [stepped] at ok
        cases ok
      | ok made =>
        rw [stepped] at ok
        cases ok
        exact ⟨⟨notes, made, noted, stepped, rfl, rfl⟩, trivial⟩

/-- A run is refused for a value that is not valid, or at a call after others that were not. -/
theorem runCalls_error {index : Option Nat} {e : Refusal}
    (error : (runCalls h palette host calls).result = .error (index, e)) :
    (∃ i, e = .invalid i) ∨ ∃ front call back done heap, calls = front ++ call :: back ∧
      Heap.Reaches h palette host front done heap ∧
      (heap.step h palette front.length call).result = .error (index, e) := by
  rw [runCalls_eq] at error
  -- a run fails in its setup, for the order of its calls, or at one of its steps
  cases noted : (Heap.setup h host).result with
  | error e' =>
    rw [noted] at error
    cases error
    rcases (Heap.collect_error noted).2 with absurd | invalid
    · cases absurd
    · exact .inl invalid
  | ok notes =>
    cases sorted : firstUnsorted calls with
    | some index =>
      rw [noted, sorted] at error
      cases error
      exact .inl ⟨_, rfl⟩
    | none =>
      rw [noted, sorted] at error
      simp only at error
      cases stepped : ((Heap.setup h host).heap.steps h palette 0 calls).result with
      | ok made =>
        rw [stepped] at error
        cases error
      | error e' =>
        rw [stepped] at error
        cases error
        obtain ⟨front, call, back, made, rfl, ok, refused⟩ := Heap.steps_error stepped
        rw [Nat.zero_add] at refused
        exact .inr ⟨front, call, back, _, _, rfl, ⟨notes, made, noted, ok, rfl, rfl⟩, refused⟩

/-- With a palette a run is its calls and the last check. -/
theorem run_eq (nonempty : palette.colors ≠ []) : run h palette host calls
    = ((runCalls h palette host calls).finish, (runCalls h palette host calls).heap.host) := by
  unfold run
  rw [if_neg (by simpa using nonempty)]

/-- Without a palette a run fails at once, and the allocator never hears of it. -/
theorem run_of_no_colors (empty : palette.colors = []) :
    run h palette host calls = (.error ⟨.emptyPalette, none, []⟩, host) := by
  unfold run
  rw [if_pos (by simp [empty])]

theorem colors_ne_nil_of_run_ok {r : Run} (ok : (run h palette host calls).1 = .ok r) :
    palette.colors ≠ [] := by
  intro empty
  rw [run_of_no_colors empty] at ok
  cases ok

/-- A run with colors fails where one of its calls is refused. -/
theorem run_of_runCalls_error (nonempty : palette.colors ≠ []) {index : Option Nat} {e : Refusal}
    (error : (runCalls h palette host calls).result = .error (index, e)) :
    (run h palette host calls).1 = .error ⟨e, index, (runCalls h palette host calls).logs⟩ := by
  rw [run_eq nonempty]
  unfold Outcome.finish
  rw [error]

/-- A run that succeeds shows memory after all of its calls, which are sorted. -/
theorem run_ok {r : Run} (ok : (run h palette host calls).1 = .ok r) :
    ∃ heap, Heap.Reaches h palette host calls r.trace.calls heap ∧
      firstUnsorted calls = none ∧
      r.peak = heap.bytes.peak ∧ r.occupied = heap.bytes.occupied ∧ r.live = heap.live := by
  unfold run at ok
  split at ok
  · cases ok
  · simp only [Outcome.finish] at ok
    split at ok
    · cases ok
    · rename_i done finished
      obtain ⟨reaches, sorted⟩ := runCalls_ok finished
      split at ok
      · cases ok
      · rename_i trace checked
        cases ok
        have trace_calls : trace.calls = done := by
          unfold Trace.ofCalls? at checked
          split at checked
          · cases checked
            rfl
          · cases checked
        exact ⟨_, trace_calls ▸ reaches, sorted, rfl, rfl, rfl⟩

/-- A run that succeeds leaves the allocator where its last call does. -/
theorem run_host {r : Run} (ok : (run h palette host calls).1 = .ok r) :
    (run h palette host calls).2
      = ((Heap.setup h host).heap.steps h palette 0 calls).heap.host := by
  obtain ⟨-, ⟨notes, made, noted, -⟩, sorted, -⟩ := run_ok ok
  rw [run_eq (colors_ne_nil_of_run_ok ok), runCalls_eq, noted, sorted]

/-- A run that fails has no colors, is refused for a value that is not valid, or fails at a call
after others that were not refused. -/
theorem run_error {e : RunFailure} (error : (run h palette host calls).1 = .error e) :
    e.refusal = .emptyPalette ∨ (∃ i, e.refusal = .invalid i) ∨
    ∃ front call back done heap, calls = front ++ call :: back ∧
      Heap.Reaches h palette host front done heap ∧
      (heap.step h palette front.length call).result = .error (e.callIndex, e.refusal) := by
  unfold run at error
  split at error
  · cases error
    exact .inl rfl
  · simp only [Outcome.finish] at error
    split at error
    · rename_i index refusal refused
      cases error
      exact .inr (runCalls_error refused)
    · split at error
      · cases error
        exact .inr (.inl ⟨_, rfl⟩)
      · cases error

end Runs

end Heapscope
