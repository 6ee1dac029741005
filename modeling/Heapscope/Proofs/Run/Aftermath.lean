import Heapscope.Proofs.Host.Transcript
import Heapscope.Proofs.Run.Lockstep
import Heapscope.Proofs.Run.Prefixes
import Heapscope.Proofs.Run.Refusals

/-!
# The allocator after a run

A run leaves its allocator in some state, whether it succeeds or not.  What one call does to the
allocator is at most one allocation or one release, and what everything that a run does keeps holds
in the end.

* `Heap.made`, `Heap.Asked` -- a call that is made, and what the allocator is asked for by it;
* `Host.Keeps`, `run_keeps` -- what a run keeps, however it ends;
* `ReleasesInside`, `run_releases_inside` -- nothing beyond the address space is released;
* `refused_of_run_error`, `run_of_refused` -- a run that fails for anything but a value that is not
  valid fails where a call is refused, and leaves the allocator there.
-/

namespace Heapscope

variable {σ : Type} {h : Host σ} {palette : Palette}

/-! ## One call -/

namespace Heap

variable {heap : Heap σ} {call : Call}

/-- A call that is made on behalf of its thread: before anything is collected. -/
def made (h : Host σ) (palette : Palette) (heap : Heap σ) (call : Call) :
    Except Refusal Call × Heap σ :=
  (told h heap call).apply h palette call

/-- A step makes a call and collects what is queued then. -/
theorem step_eq (index : Nat) : heap.step h palette index call
    = (heap.made h palette call).2.collect h (.ofCall index call)
        ((heap.made h palette call).1.map fun c => [c]) := rfl

/-- A call that asks for a block is refused when the block is not placed. -/
theorem made_of_unplaced {size : UInt32} {pinned : Option UInt32} {color : Option Color} {host : σ}
    {e : Refusal} (op : call.op = .malloc size pinned color) (positive : size ≠ 0)
    (unplaced : place h size pinned (h.setThread call.thread heap.host) = (.error e, host)) :
    heap.made h palette call = (.error e, { told h heap call with host }) := by
  have placed : place h size pinned (told h heap call).host = (.error e, host) := unplaced
  unfold made apply
  simp only [op, malloc, if_neg positive, placed]

/-- What an allocator is asked for by one call: nothing, an allocation, or a release. -/
inductive Asked (h : Host σ) (s : σ) : σ → Prop
  | nothing : Asked h s s
  | malloc (size : UInt32) : Asked h s (h.malloc size s).2
  | free (address : UInt32) : Asked h s (h.free address s).2

theorem place_asked (size : UInt32) (pinned : Option UInt32) (s : σ) :
    Asked h s (place h size pinned s).2 := by
  unfold place
  cases pinned with
  | some address =>
    simp only
    split
    · exact .nothing
    · exact .nothing
  | none =>
    have asked : Asked h s (h.malloc size s).2 := .malloc size
    simp only
    split
    · rename_i told
      rwa [told] at asked
    · rename_i told
      rwa [told] at asked

theorem malloc_asked (size : UInt32) (pinned : Option UInt32) (color : Option Color)
    (id : Option AllocationKey) :
    Asked h heap.host (heap.malloc h palette size pinned color id).2.host := by
  have placed : Asked h heap.host (place h size pinned heap.host).2 := place_asked size pinned _
  unfold malloc
  split
  · exact .nothing
  · split
    · rename_i told
      rwa [told] at placed
    · rename_i address host told
      rw [told] at placed
      simp only
      split
      · exact placed
      · rename_i claimed
        obtain ⟨-, -, -, -, -, rfl⟩ := claim_ok claimed
        exact placed

theorem free_asked (key : AllocationKey) : Asked h heap.host (heap.free h key).2.host := by
  unfold free
  split
  · exact .nothing
  · rename_i block found
    split
    · exact .nothing
    · have asked : Asked h heap.host (if block.pinned then (.ok (), heap.host)
          else h.free block.address heap.host).2 := by
        cases block.pinned with
        | true => exact .nothing
        | false => exact .free block.address
      simp only
      split
      · exact asked
      · exact asked

/-- A call asks the allocator for at most one thing, whether it is refused or not. -/
theorem apply_asked (heap : Heap σ) (call : Call) :
    Asked h heap.host (heap.apply h palette call).2.host := by
  unfold apply
  cases call.op with
  | malloc size pinned color =>
    have asked : Asked h heap.host (heap.malloc h palette size pinned color call.id).2.host :=
      malloc_asked size pinned color call.id
    simp only
    split
    · rename_i told
      rwa [told] at asked
    · rename_i told
      rwa [told] at asked
  | free address color =>
    simp only
    split
    · exact .nothing
    · rename_i key _
      have asked : Asked h heap.host (heap.free h key).2.host := free_asked key
      split
      · rename_i told
        rwa [told] at asked
      · rename_i told
        rwa [told] at asked
  | sleep => exact .nothing
  | annotate note =>
    simp only
    split
    · exact .nothing
    · exact .nothing

theorem made_asked (heap : Heap σ) (call : Call) :
    Asked h (h.setThread call.thread heap.host) (heap.made h palette call).2.host :=
  apply_asked (told h heap call) call

end Heap

/-! ## Whole runs -/

/-- What is kept by everything that a run does with an allocator. -/
structure Host.Keeps (h : Host σ) (P : σ → Prop) : Prop where
  setThread : ∀ {s}, P s → ∀ thread, P (h.setThread thread s)
  malloc : ∀ {s}, P s → ∀ size, P (h.malloc size s).2
  /-- Runs release nothing beyond the address space. -/
  free : ∀ {s}, P s → ∀ {address}, address < h.capacity → P (h.free address s).2
  drainNotes : ∀ {s}, P s → P (h.drainNotes s).2
  drainLogs : ∀ {s}, P s → P (h.drainLogs s).2

variable {host : σ}

/-- What everything that a run does keeps holds after the run, however it ends. -/
theorem run_keeps {P : σ → Prop} (keeps : h.Keeps P) (before : P host) (palette : Palette)
    (calls : List Call) : P (run h palette host calls).2 := by
  -- an allocator is in lockstep with itself, in states that have the property
  have lockstep : h.Lockstep h fun s t => s = t ∧ P s :=
    { capacity := rfl
      setThread := by
        rintro s _ ⟨rfl, here⟩ thread
        exact ⟨rfl, keeps.setThread here thread⟩
      malloc := by
        rintro s _ ⟨rfl, here⟩ size
        exact ⟨rfl, rfl, keeps.malloc here size⟩
      free := by
        rintro s _ ⟨rfl, here⟩ address inside
        exact ⟨rfl, rfl, keeps.free here inside⟩
      drainNotes := by
        rintro s _ ⟨rfl, here⟩
        exact ⟨rfl, rfl, keeps.drainNotes here⟩
      drainLogs := by
        rintro s _ ⟨rfl, here⟩
        exact ⟨rfl, rfl, keeps.drainLogs here⟩ }
  exact (run_lockstep lockstep ⟨rfl, before⟩ palette calls).2.2

/-- What is released on a transcript lies in an address space. -/
def ReleasesInside (capacity : UInt32) (events : List HostEvent) : Prop :=
  ∀ thread address reply, .free thread address reply ∈ exchanges events → address < capacity

theorem ReleasesInside.concat {capacity : UInt32} {events : List HostEvent} {e : HostEvent}
    (before : ReleasesInside capacity events)
    (this : ∀ thread address reply, e.exchange? = some (.free thread address reply) →
      address < capacity) : ReleasesInside capacity (events ++ [e]) := by
  intro thread address reply released
  rw [exchanges_concat] at released
  rcases List.mem_append.mp released with earlier | last
  · exact before thread address reply earlier
  · exact this thread address reply (Option.mem_toList.mp last)

/-- A run releases nothing beyond the address space. -/
theorem run_releases_inside (h : Host σ) (palette : Palette) (host : σ) (calls : List Call) :
    ReleasesInside h.capacity (run h.recorded palette (.start host) calls).2.events := by
  have keeps : h.recorded.Keeps fun s => ReleasesInside h.capacity s.events :=
    { setThread := fun before _ => before.concat (by rintro _ _ _ ⟨⟩)
      malloc := fun before _ => before.concat (by rintro _ _ _ ⟨⟩)
      free := by
        intro s before released inside
        refine before.concat ?_
        rintro thread address reply this
        cases this
        exact inside
      drainNotes := fun before => before.concat (by rintro _ _ _ ⟨⟩)
      drainLogs := fun before => before.concat (by rintro _ _ _ ⟨⟩) }
  have start : ReleasesInside h.capacity (Recorded.start host).events := by
    intro thread address reply released
    cases released
  exact run_keeps keeps start palette calls

namespace Heap

variable {heap : Heap σ}

/-- A step whose call is refused is refused alike, and collects messages only. -/
theorem step_of_unmade {call : Call} {e : Refusal} (index : Nat)
    (unmade : (heap.made h palette call).1 = .error e) :
    (heap.step h palette index call).result = .error (some index, e) ∧
      (heap.step h palette index call).heap.host
        = (h.drainLogs (heap.made h palette call).2.host).2 := by
  rw [step_eq, unmade]
  exact ⟨rfl, rfl⟩

/-- A step is refused with its call, or for an annotation that is not valid. -/
theorem unmade_of_step_error {call : Call} {index : Nat} {place : Option Nat} {e : Refusal}
    (error : (heap.step h palette index call).result = .error (place, e)) :
    (∃ i, e = .invalid i) ∨ (heap.made h palette call).1 = .error e ∧ place = some index := by
  obtain ⟨at_index, refused | invalid⟩ := collect_error error
  · exact .inr ⟨error_of_map_error refused, at_index⟩
  · exact .inl invalid

/-- Calls that are refused leave memory where the refused one does. -/
theorem steps_heap_of_error {index : Nat} {front made : List Call} {call : Call} (back : List Call)
    (ok : (heap.steps h palette index front).result = .ok made) {e : Option Nat × Refusal}
    (refused : ((heap.steps h palette index front).heap.step h palette (index + front.length)
      call).result = .error e) :
    (heap.steps h palette index (front ++ call :: back)).heap
      = ((heap.steps h palette index front).heap.step h palette (index + front.length) call).heap := by
  rw [steps_append_of_ok ok]
  simp only
  rw [steps]
  simp only [refused]

end Heap

/-- A run of sorted calls fails where a call is refused, and leaves the allocator there, with its
messages collected. -/
theorem run_of_refused {front back done : List Call} {call : Call} {heap : Heap σ} {e : Refusal}
    (nonempty : palette.colors ≠ []) (sorted : InOrder (front ++ call :: back))
    (reaches : Heap.Reaches h palette host front done heap)
    (refused : (heap.made h palette call).1 = .error e) :
    ∃ failure, (run h palette host (front ++ call :: back)).1 = .error failure ∧
      failure.refusal = e ∧ failure.callIndex = some front.length ∧
      (run h palette host (front ++ call :: back)).2
        = (h.drainLogs (heap.made h palette call).2.host).2 := by
  obtain ⟨notes, made, noted, ok, rfl, rfl⟩ := reaches
  obtain ⟨stopped, left⟩ := Heap.step_of_unmade (0 + front.length) refused
  have whole : runCalls h palette host (front ++ call :: back) = _ := runCalls_of_inOrder noted sorted
  have result : ((Heap.setup h host).heap.steps h palette 0 (front ++ call :: back)).result
      = .error (some (0 + front.length), e) := by
    rw [Heap.steps_append_of_ok ok]
    simp only
    rw [Heap.steps_cons_of_error stopped]
    rfl
  have failed : (runCalls h palette host (front ++ call :: back)).result
      = .error (some (0 + front.length), e) := by
    rw [whole, result]
    rfl
  refine ⟨_, run_of_runCalls_error nonempty failed, rfl, by simp, ?_⟩
  rw [run_eq nonempty, whole]
  simp only
  rw [Heap.steps_heap_of_error back ok stopped, left]

/-- A run with colors that fails has a value that is not valid, or fails where a call is refused; it
leaves the allocator there, with its messages collected. -/
theorem refused_of_run_error {calls : List Call} {e : RunFailure} (nonempty : palette.colors ≠ [])
    (error : (run h palette host calls).1 = .error e) :
    (∃ i, e.refusal = .invalid i) ∨
    ∃ front call back done heap, calls = front ++ call :: back ∧
      Heap.Reaches h palette host front done heap ∧
      (heap.made h palette call).1 = .error e.refusal ∧ e.callIndex = some front.length ∧
      (run h palette host calls).2 = (h.drainLogs (heap.made h palette call).2.host).2 := by
  have whole : runCalls h palette host calls = _ := runCalls_eq
  cases noted : (Heap.setup h host).result with
  | error refused =>
    obtain ⟨place, refusal⟩ := refused
    rw [noted] at whole
    rw [run_eq nonempty, whole] at error
    cases error
    obtain ⟨-, absurd | invalid⟩ := Heap.collect_error noted
    · cases absurd
    · exact .inl invalid
  | ok notes =>
    cases unsorted : firstUnsorted calls with
    | some index =>
      rw [noted, unsorted] at whole
      rw [run_eq nonempty, whole] at error
      cases error
      exact .inl ⟨_, rfl⟩
    | none =>
      have sorted : InOrder calls := inOrder_of_firstUnsortedFrom unsorted
      obtain ⟨front, call, back, made, rfl, ok, refused⟩ :=
        Heap.steps_error (steps_error_of_run_error nonempty sorted noted error)
      rw [Nat.zero_add] at refused
      have reaches : Heap.Reaches h palette host front _ _ := ⟨notes, made, noted, ok, rfl, rfl⟩
      rcases Heap.unmade_of_step_error refused with invalid | ⟨unmade, place⟩
      · exact .inl invalid
      · obtain ⟨-, -, -, -, left⟩ := run_of_refused nonempty sorted reaches unmade
        exact .inr ⟨front, call, back, _, _, rfl, reaches, unmade, place, left⟩

end Heapscope
