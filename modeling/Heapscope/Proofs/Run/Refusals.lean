import Heapscope.Proofs.Run.Woven

/-!
# Why runs stop

A call is refused by one of the checks on its way, and a run stops at the first call that is refused
or that leads to an annotation that is not valid.  With sorted calls there is no other reason.

* `Refused` -- a call that is refused, by the check that refuses it;
* `Stops` -- a run that stops, by the place where it does;
* `stops_of_run_error` -- a run of sorted calls that fails stops in one of these ways.
-/

namespace Heapscope

namespace Heap

variable {σ : Type} {h : Host σ} {palette : Palette} {heap heap' : Heap σ} {call : Call}

/-! ## One call -/

/-- Why a call is refused: the first of its checks that fails. -/
inductive Refused (h : Host σ) (heap : Heap σ) (call : Call) : Refusal → Prop
  | empty {pinned : Option UInt32} {color : Option Color} (op : call.op = .malloc 0 pinned color) :
      Refused h heap call (.invalid (.size 0))
  | unplaced {size : UInt32} {pinned : Option UInt32} {color : Option Color} {host : σ}
      {e : Refusal} (op : call.op = .malloc size pinned color) (positive : size ≠ 0)
      (refused : place h size pinned heap.host = (.error e, host)) : Refused h heap call e
  | taken {size address : UInt32} {pinned : Option UInt32} {color : Option Color} {host : σ}
      (op : call.op = .malloc size pinned color) (positive : size ≠ 0)
      (placed : place h size pinned heap.host = (.ok address, host))
      (live : heap.live.contains (call.id.getD (.address address)) = true) :
      Refused h heap call (.invalid (.duplicateKey (call.id.getD (.address address)).text))
  | occupied {size address : UInt32} {pinned : Option UInt32} {color : Option Color} {host : σ}
      {fault : OccupancyFault} (op : call.op = .malloc size pinned color) (positive : size ≠ 0)
      (placed : place h size pinned heap.host = (.ok address, host))
      (fresh : heap.live.contains (call.id.getD (.address address)) = false)
      (unmarked : heap.bytes.mark address size = .error fault) :
      Refused h heap call (.ofOccupancy fault)
  | unnamed {address : Option UInt32} {color : Option Color} (op : call.op = .free address color)
      (none_named : call.id.or (address.map .address) = none) :
      Refused h heap call (.unknownBlock "<unnamed>")
  | unknown {address : Option UInt32} {color : Option Color} {key : AllocationKey}
      (op : call.op = .free address color)
      (named : call.id.or (address.map .address) = some key)
      (none_found : heap.live.find? key = none) : Refused h heap call (.unknownBlock key.text)
  | unoccupied {address : Option UInt32} {color : Option Color} {key : AllocationKey}
      {block : Block} {fault : OccupancyFault} (op : call.op = .free address color)
      (named : call.id.or (address.map .address) = some key)
      (found : heap.live.find? key = some block)
      (uncleared : heap.bytes.clear block.address block.size = .error fault) :
      Refused h heap call (.ofOccupancy fault)
  | unreleased {address : Option UInt32} {color : Option Color} {key : AllocationKey}
      {block : Block} {host : σ} {e : HostError} (op : call.op = .free address color)
      (named : call.id.or (address.map .address) = some key)
      (found : heap.live.find? key = some block)
      (told : (if block.pinned then (.ok (), heap.host) else h.free block.address heap.host)
        = (.error e, host)) : Refused h heap call (.ofHost e)
  | note {note : Note} {i : Invalid} (op : call.op = .annotate note)
      (invalid : note.validate h.capacity = .error i) : Refused h heap call (.invalid i)

/-- A block is not placed when a pinned address is out of range, or when the allocator returns no
block or gives no answer. -/
theorem place_error {size : UInt32} {pinned : Option UInt32} {host host' : σ} {e : Refusal}
    (error : place h size pinned host = (.error e, host')) :
    (∃ address, pinned = some address ∧
      e = .invalid (.outside (.ofNat address.toNat) size h.capacity)) ∨
    (pinned = none ∧ ((∃ returned, e = .outOfMemory size returned h.capacity) ∨
      ∃ lack, e = .ofHost lack)) := by
  unfold place at error
  cases pinned with
  | some address =>
    simp only at error
    split at error
    · cases error
    · rename_i i beyond
      cases error
      rw [checkSpan_error beyond]
      exact .inl ⟨address, rfl, rfl⟩
  | none =>
    refine .inr ⟨rfl, ?_⟩
    simp only at error
    split at error
    · rename_i returned host'' replied
      obtain ⟨refused, -⟩ := Prod.mk.inj error
      unfold acceptReturned at refused
      simp only at refused
      split at refused
      · cases refused
        exact .inl ⟨returned, rfl⟩
      · cases refused
    · rename_i lack host'' replied
      cases error
      exact .inr ⟨lack, rfl⟩

theorem claim_error {address size : UInt32} {pinned : Bool} {color : Option Color}
    {id : Option AllocationKey} {e : Refusal}
    (error : claim palette heap address size pinned color id = .error e) :
    (heap.live.contains (id.getD (.address address)) = true ∧
      e = .invalid (.duplicateKey (id.getD (.address address)).text)) ∨
    (heap.live.contains (id.getD (.address address)) = false ∧
      ∃ fault, heap.bytes.mark address size = .error fault ∧ e = .ofOccupancy fault) := by
  unfold claim at error
  simp only at error
  split at error
  · rename_i live
    cases error
    exact .inl ⟨live, rfl⟩
  · rename_i fresh
    split at error
    · rename_i fault unmarked
      cases error
      exact .inr ⟨Bool.not_eq_true _ ▸ fresh, fault, unmarked, rfl⟩
    · cases error

theorem refused_of_malloc_error {size : UInt32} {pinned : Option UInt32} {color : Option Color}
    {e : Refusal} (op : call.op = .malloc size pinned color)
    (error : heap.malloc h palette size pinned color call.id = (.error e, heap')) :
    Refused h heap call e := by
  unfold malloc at error
  split at error
  · rename_i zero
    cases error
    exact .empty (zero ▸ op)
  · rename_i positive
    split at error
    · rename_i refused
      cases error
      exact .unplaced op positive refused
    · rename_i address host placed
      simp only at error
      split at error
      · rename_i claimed
        cases error
        rcases claim_error claimed with ⟨live, rfl⟩ | ⟨fresh, fault, unmarked, rfl⟩
        · exact .taken op positive placed live
        · exact .occupied op positive placed fresh unmarked
      · cases error

theorem refused_of_free_error {address : Option UInt32} {color : Option Color}
    {key : AllocationKey} {e : Refusal} (op : call.op = .free address color)
    (named : call.id.or (address.map .address) = some key)
    (error : heap.free h key = (.error e, heap')) : Refused h heap call e := by
  unfold free at error
  split at error
  · rename_i none_found
    cases error
    exact .unknown op named none_found
  · rename_i block found
    split at error
    · rename_i fault uncleared
      cases error
      exact .unoccupied op named found uncleared
    · simp only at error
      split at error
      · rename_i lack told
        cases error
        exact .unreleased op named found (Prod.ext told rfl)
      · cases error

/-- A call that is refused is refused by one of these checks. -/
theorem refused_of_apply_error {e : Refusal}
    (error : heap.apply h palette call = (.error e, heap')) : Refused h heap call e := by
  unfold apply at error
  cases op : call.op with
  | malloc size pinned color =>
    simp only [op] at error
    split at error
    · rename_i refused
      cases error
      exact refused_of_malloc_error op refused
    · cases error
  | free address color =>
    simp only [op] at error
    split at error
    · rename_i none_named
      cases error
      exact .unnamed op none_named
    · rename_i key named
      split at error
      · rename_i refused
        cases error
        exact refused_of_free_error op named refused
      · cases error
  | sleep =>
    simp only [op] at error
    cases error
  | annotate note =>
    simp only [op] at error
    split at error
    · cases error
    · rename_i i invalid
      cases error
      exact .note op invalid

/-! ## Steps -/

/-- Memory when the allocator has been told of the thread of a call. -/
def told (h : Host σ) (heap : Heap σ) (call : Call) : Heap σ :=
  { heap with host := h.setThread call.thread heap.host }

/-- A step fails when its call is refused, or when the allocator has queued an annotation that is
not valid. -/
theorem step_refused {index : Nat} {place : Option Nat} {e : Refusal}
    (error : (heap.step h palette index call).result = .error (place, e)) :
    place = some index ∧ (Refused h (told h heap call) call e ∨
      ∃ done heap', Applied h palette (told h heap call) call done heap' ∧
        ∃ note ∈ queued h heap', ∃ i, note.validate h.capacity = .error i ∧ e = .invalid i) := by
  unfold step at error
  simp only at error
  generalize eq : apply h palette { heap with host := h.setThread call.thread heap.host } call
    = out at error
  obtain ⟨result, heap'⟩ := out
  obtain ⟨rfl, refused | ⟨made, applied, invalid⟩⟩ := collect_refused error
  · refine ⟨rfl, .inl ?_⟩
    cases result with
    | error e' =>
      cases refused
      exact refused_of_apply_error eq
    | ok done => cases refused
  · refine ⟨rfl, .inr ?_⟩
    cases result with
    | error e' => cases applied
    | ok done => exact ⟨done, heap', applied_of_apply_ok eq, invalid⟩

/-- A step is refused for what its call is refused for. -/
theorem step_of_apply_error {index : Nat} {e : Refusal}
    (error : ((told h heap call).apply h palette call).1 = .error e) :
    (heap.step h palette index call).result = .error (some index, e) := by
  have failed : (apply h palette { heap with host := h.setThread call.thread heap.host } call).1
      = .error e := error
  unfold step
  simp only [failed]
  rfl

end Heap

/-! ## Whole runs -/

section Runs

variable {σ : Type} {h : Host σ} {palette : Palette} {host : σ} {calls : List Call}

/-- Where a run of sorted calls stops: before the first call, at a call that is refused, or behind a
call that is not. -/
inductive Stops (h : Host σ) (palette : Palette) (host : σ) (calls : List Call) :
    Option Nat → Refusal → Prop
  | setup {note : Note} {i : Invalid} (queued : note ∈ Heap.queued h (Heap.start h host))
      (invalid : note.validate h.capacity = .error i) : Stops h palette host calls none (.invalid i)
  | refused {front back done : List Call} {call : Call} {heap : Heap σ} {e : Refusal}
      (split : calls = front ++ call :: back) (reaches : Heap.Reaches h palette host front done heap)
      (refused : Heap.Refused h (heap.told h call) call e) :
      Stops h palette host calls (some front.length) e
  | annotated {front back done : List Call} {call made : Call} {heap heap' : Heap σ} {note : Note}
      {i : Invalid} (split : calls = front ++ call :: back)
      (reaches : Heap.Reaches h palette host front done heap)
      (applied : Heap.Applied h palette (heap.told h call) call made heap')
      (queued : note ∈ Heap.queued h heap') (invalid : note.validate h.capacity = .error i) :
      Stops h palette host calls (some front.length) (.invalid i)

theorem stops_of_runCalls_error (sorted : InOrder calls) {index : Option Nat} {e : Refusal}
    (error : (runCalls h palette host calls).result = .error (index, e)) :
    Stops h palette host calls index e := by
  cases noted : (Heap.setup h host).result with
  | error e' =>
    rw [runCalls_eq, noted] at error
    cases error
    obtain ⟨rfl, absurd | ⟨-, -, note, member, i, invalid, rfl⟩⟩ := Heap.collect_refused noted
    · cases absurd
    · exact .setup member invalid
  | ok notes =>
    rw [runCalls_of_inOrder noted sorted] at error
    obtain ⟨front, call, back, made, split, ok, failed⟩ :=
      Heap.steps_error (error_of_map_error error)
    rw [Nat.zero_add] at failed
    have reaches : Heap.Reaches h palette host front (notes ++ made) _ :=
      ⟨notes, made, noted, ok, rfl, rfl⟩
    obtain ⟨rfl, refused | ⟨done, heap', applied, note, member, i, invalid, rfl⟩⟩ :=
      Heap.step_refused failed
    · exact .refused split reaches refused
    · exact .annotated split reaches applied member invalid

/-- A run of sorted calls that fails has no colors, or stops for one of these reasons: its last check
never fails. -/
theorem stops_of_run_error (sorted : InOrder calls) {e : RunFailure}
    (error : (run h palette host calls).1 = .error e) :
    (palette.colors = [] ∧ e.refusal = .emptyPalette) ∨
      Stops h palette host calls e.callIndex e.refusal := by
  by_cases empty : palette.colors = []
  · rw [run_of_no_colors empty] at error
    cases error
    exact .inl ⟨empty, rfl⟩
  · refine .inr ?_
    cases made : (runCalls h palette host calls).result with
    | error failure =>
      obtain ⟨index, refusal⟩ := failure
      rw [run_of_runCalls_error empty made] at error
      cases error
      exact stops_of_runCalls_error sorted made
    | ok done =>
      obtain ⟨r, succeeds, -⟩ := run_of_runCalls_ok empty made
      rw [succeeds] at error
      cases error

end Runs

end Heapscope
