import Heapscope.Proofs.Run.Soundness

/-!
# Memory and trace agree

What follows from soundness for runs.  A block is given back only by its key, so all of its bytes
are in use then, and clearing them is never refused; a placed block is in range, so marking it fails
only on a byte that is in use.

* `Heap.Sound.clear_ok`, `Heap.Sound.mark_ne_outside` -- the two checks that never fail;
* `Heap.Sound.apply_ne_notInUse` -- no call is refused for releasing bytes that are free;
* `memory_agrees_with_trace` -- the state of memory throughout a run.
-/

namespace Heapscope

theorem Refusal.ofHost_ne_notInUse (e : HostError) (a : UInt32) : ofHost e ≠ notInUse a := by
  cases e <;> exact nofun

namespace Heap

variable {σ : Type} {h : Host σ} {palette : Palette} {host host' : σ} {heap heap' : Heap σ}

/-- Nothing is released while a block is placed. -/
theorem place_ne_notInUse {size : UInt32} {pinned : Option UInt32} {e : Refusal}
    (error : place h size pinned host = (.error e, host')) (a : UInt32) : e ≠ .notInUse a := by
  unfold place at error
  cases pinned with
  | some address =>
    simp only at error
    split at error
    · cases error
    · cases error
      exact nofun
  | none =>
    simp only at error
    split at error
    · rename_i accepted _
      obtain ⟨refused, -⟩ := Prod.mk.inj error
      unfold acceptReturned at refused
      simp only at refused
      split at refused
      · cases refused
        exact nofun
      · cases refused
    · cases error
      exact Refusal.ofHost_ne_notInUse _ a

namespace Sound

variable {capacity : UInt32} {done : List Call}

/-- The bytes of a block in use are in use. -/
theorem clear_ok (sound : Sound capacity done heap) {key : AllocationKey} {block : Block}
    (found : heap.live.find? key = some block) :
    ∃ bytes, heap.bytes.clear block.address block.size = .ok bytes := by
  have member := OrderedMap.find?_eq_some_iff.mp found
  have fits : block.address.toNat + block.size.toNat ≤ heap.bytes.capacity.toNat := by
    rw [sound.capacity_eq]
    exact (sound.inside member).2
  -- neither refusal is possible: the block lies in range and all of its bytes are in use
  rcases Occupancy.clear_verdict sound.wellFormed block.address block.size with
    ⟨bytes, ok, -⟩ | ⟨-, beyond⟩ | ⟨b, -, -, le, lt, free, -⟩
  · exact ⟨bytes, ok⟩
  · omega
  · exact absurd ((sound.holds_iff b).mpr ⟨_, member, le, lt⟩) free

/-- A span that was placed is in range. -/
theorem mark_ne_outside (sound : Sound h.capacity done heap) {size address : UInt32}
    {pinned : Option UInt32} (placed : place h size pinned host = (.ok address, host'))
    (a n c : UInt32) : heap.bytes.mark address size ≠ .error (.outside a n c) := by
  have fits := place_fits placed
  rw [← sound.capacity_eq] at fits
  rcases Occupancy.mark_verdict sound.wellFormed address size with
    ⟨bytes, ok, -⟩ | ⟨-, beyond⟩ | ⟨b, inUse, -⟩
  · rw [ok]
    exact nofun
  · omega
  · rw [inUse]
    exact nofun

/-- Taking a block into use releases nothing. -/
theorem claim_ne_notInUse (sound : Sound capacity done heap) {address size : UInt32}
    {pinned : Bool} {color : Option Color} {id : Option AllocationKey} {e : Refusal}
    (error : claim palette heap address size pinned color id = .error e) (a : UInt32) :
    e ≠ .notInUse a := by
  unfold claim at error
  simp only at error
  split at error
  · cases error
    intro same
    cases same
  · split at error
    · rename_i fault refused
      cases error
      rcases Occupancy.mark_verdict sound.wellFormed address size with
        ⟨bytes, ok, -⟩ | ⟨outside, -⟩ | ⟨b, inUse, -⟩
      · rw [ok] at refused
        cases refused
      · rw [outside] at refused
        cases refused
        intro same
        cases same
      · rw [inUse] at refused
        cases refused
        intro same
        cases same
    · cases error

theorem malloc_ne_notInUse (sound : Sound capacity done heap) {size : UInt32}
    {pinned : Option UInt32} {color : Option Color} {id : Option AllocationKey} {e : Refusal}
    (error : heap.malloc h palette size pinned color id = (.error e, heap')) (a : UInt32) :
    e ≠ .notInUse a := by
  unfold Heap.malloc at error
  split at error
  · cases error
    exact nofun
  · split at error
    · rename_i placed
      cases error
      exact place_ne_notInUse placed a
    · rename_i address host placed
      simp only at error
      split at error
      · rename_i claimed
        cases error
        -- placing has asked the allocator, so memory has a new host and is otherwise the same
        have told : Sound capacity done { heap with host } := sound.congr rfl rfl
        exact told.claim_ne_notInUse claimed a
      · cases error

/-- The block that is found has all of its bytes in use. -/
theorem free_ne_notInUse (sound : Sound capacity done heap) {key : AllocationKey} {e : Refusal}
    (error : heap.free h key = (.error e, heap')) (a : UInt32) : e ≠ .notInUse a := by
  unfold Heap.free at error
  split at error
  · cases error
    exact nofun
  · rename_i block found
    obtain ⟨bytes, ok⟩ := sound.clear_ok found
    simp only [ok] at error
    split at error
    · cases error
      exact Refusal.ofHost_ne_notInUse _ a
    · cases error

/-- No call is refused for releasing bytes that are free. -/
theorem apply_ne_notInUse (sound : Sound capacity done heap) {call : Call} {e : Refusal}
    (error : heap.apply h palette call = (.error e, heap')) (a : UInt32) : e ≠ .notInUse a := by
  unfold apply at error
  cases op : call.op with
  | malloc size pinned color =>
    simp only [op] at error
    split at error
    · rename_i refused
      cases error
      exact sound.malloc_ne_notInUse refused a
    · cases error
  | free address color =>
    simp only [op] at error
    split at error
    · cases error
      exact nofun
    · split at error
      · rename_i refused
        cases error
        exact sound.free_ne_notInUse refused a
      · cases error
  | sleep =>
    simp only [op] at error
    cases error
  | annotate note =>
    simp only [op] at error
    split at error
    · cases error
    · cases error
      exact nofun

theorem step_ne_notInUse (sound : Sound capacity done heap) {index : Nat} {call : Call}
    {at? : Option Nat} {e : Refusal}
    (error : (heap.step h palette index call).result = .error (at?, e)) (a : UInt32) :
    e ≠ .notInUse a := by
  have told : Sound capacity done { heap with host := h.setThread call.thread heap.host } :=
    sound.congr rfl rfl
  unfold Heap.step at error
  simp only at error
  generalize eq : apply h palette { heap with host := h.setThread call.thread heap.host } call
    = out at error
  obtain ⟨result, heap'⟩ := out
  -- the step fails with the refusal of its call or with a note that is not valid
  rcases (collect_error error).2 with refused | ⟨i, rfl⟩
  · cases result with
    | error e' =>
      cases refused
      exact told.apply_ne_notInUse eq a
    | ok c => cases refused
  · exact nofun

end Sound

end Heap

theorem count_malloc (t : Trace) : t.count "malloc" = t.calls.countP Call.isMalloc := by
  refine List.countP_congr fun c _ => ?_
  unfold Call.isMalloc
  cases c.op <;> simp [Op.name]

theorem count_free (t : Trace) : t.count "free" = t.calls.countP Call.isFree := by
  refine List.countP_congr fun c _ => ?_
  unfold Call.isFree
  cases c.op <;> simp [Op.name]

/-- Whatever the allocator replies, the blocks in use are disjoint spans of the address space before
and after every call of a run, the bytes in use are theirs, and the counters fit.  So no run fails
because a byte that is released is free, and after a run that succeeds the blocks in use are those
of the allocations that no later call of the trace releases. -/
theorem memory_agrees_with_trace {σ : Type} (h : Host σ) (palette : Palette) (host : σ)
    (calls : List Call) :
    (∀ front back done heap, calls = front ++ back →
      Heap.Reaches h palette host front done heap →
      (∀ e ∈ heap.live.entries, e.2.Inside h.capacity) ∧
      (heap.live.entries.Pairwise fun d e => d.2.Disjoint e.2) ∧
      (∀ b, heap.bytes.isMarked b = true ↔ ∃ e ∈ heap.live.entries, e.2.Covers b.toNat) ∧
      heap.bytes.occupied = (heap.live.entries.map fun e => e.2.size.toNat).sum ∧
      heap.bytes.peak.map UInt32.toNat = (done.filterMap Call.lastByte?).max? ∧
      (∀ key block, heap.live.find? key = some block →
        ∃ bytes, heap.bytes.clear block.address block.size = .ok bytes) ∧
      ∀ size pinned address asked told, Heap.place h size pinned asked = (.ok address, told) →
        ∀ a n c, heap.bytes.mark address size ≠ .error (.outside a n c)) ∧
    (∀ e, (run h palette host calls).1 = .error e → ∀ a, e.refusal ≠ .notInUse a) ∧
    ∀ r, (run h palette host calls).1 = .ok r →
      (held r.trace.calls).map Call.allocation? = r.live.entries.map some ∧
      r.trace.count "malloc" = r.trace.count "free" + r.live.entries.length := by
  refine ⟨?during, ?refused, ?after⟩
  case during =>
    intro front back done heap _ reaches
    have sound := Heap.Sound.of_reaches reaches
    refine ⟨fun e => sound.inside, sound.disjoint, ?_, sound.occupied_eq, sound.peak_eq,
      fun key block => sound.clear_ok, fun size pinned address asked told => sound.mark_ne_outside⟩
    intro b
    rw [Occupancy.isMarked_iff]
    exact sound.holds_iff b.toNat
  case refused =>
    intro e error a
    rcases run_error error with empty | ⟨i, invalid⟩ | ⟨front, call, back, done, heap, -, at_call⟩
    · rw [empty]
      exact nofun
    · rw [invalid]
      exact nofun
    · obtain ⟨reaches, refused⟩ := at_call
      exact (Heap.Sound.of_reaches reaches).step_ne_notInUse refused a
  case after =>
    intro r ok
    obtain ⟨heap, reaches, -, -, -, live⟩ := run_ok ok
    have sound := Heap.Sound.of_reaches reaches
    rw [live, count_malloc, count_free]
    exact ⟨sound.held_eq, sound.balance⟩

end Heapscope
