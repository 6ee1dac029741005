import Heapscope.Proofs.Host.Indifference
import Heapscope.Proofs.Run.Soundness
import Heapscope.Proofs.Run.Woven

/-!
# Timing passes and runs

A timing pass makes the same allocations and releases as a run that succeeds, in the same order and
on behalf of the same threads, though it drains nothing, checks nothing and knows of no pinned
block.  Its table is the part of the blocks in use that is not pinned.

* `asked` -- how many calls of a trace reach the allocator;
* `Host.InStep`, `UnpinnedPart` -- the allocator and the table in a timing pass, beside a run;
* `Heap.Timed`, `Heap.Applied.timed` -- the invariant, and that every call keeps it;
* `Heap.step_timed`, `Heap.steps_timed` -- one step and many;
* `timing_of_run` -- whole runs.
-/

namespace Heapscope

/-! ## What a timing pass counts -/

namespace Call

/-- Whether a call is an allocation that is left to the allocator. -/
def isUnpinnedMalloc (c : Call) : Bool :=
  match c.op with
  | .malloc _ none _ => true
  | _ => false

end Call

/-- How many calls of a trace release a block that is not pinned. -/
def unpinnedFrees (calls : List Call) : Nat :=
  (touched calls).countP fun p => p.1.isFree && !p.2.pinned

/-- How many calls of a trace reach the allocator. -/
def asked (calls : List Call) : Nat := calls.countP Call.isUnpinnedMalloc + unpinnedFrees calls

theorem asked_concat_of_not_free {c : Call} (done : List Call) (notFree : c.isFree = false) :
    asked (done ++ [c]) = asked done + if c.isUnpinnedMalloc then 1 else 0 := by
  have frees : unpinnedFrees (done ++ [c]) = unpinnedFrees done := by
    unfold unpinnedFrees
    rw [touched_concat, List.countP_append]
    cases c.blockAfter done <;> simp [notFree]
  unfold asked
  rw [frees, List.countP_append, List.countP_singleton, Nat.add_right_comm]

theorem asked_concat_free {capacity : UInt32} {c : Call} {p : Call × Block} {done : List Call}
    (h : Executed capacity done) (hp : p ∈ heldBlocks done) (released : c.releases p.1 = true) :
    asked (done ++ [c]) = asked done + if p.2.pinned then 0 else 1 := by
  have isFree := Call.isFree_of_releases released
  have notMalloc : c.isUnpinnedMalloc = false := by
    unfold Call.isUnpinnedMalloc
    split
    · rename_i op
      rw [Call.isFree, op] at isFree
      cases isFree
    · rfl
  have frees : unpinnedFrees (done ++ [c]) = unpinnedFrees done + if p.2.pinned then 0 else 1 := by
    unfold unpinnedFrees
    rw [touched_concat, h.blockAfter_of_releases hp released, List.countP_append]
    cases pinned : p.2.pinned <;> simp [isFree, pinned]
  unfold asked
  rw [frees, List.countP_append, List.countP_singleton, notMalloc,
    if_neg Bool.false_ne_true, Nat.add_zero, Nat.add_assoc]

theorem asked_append_notes (done : List Call) (o : Origin) (notes : List Note) :
    asked (done ++ notes.map o.noteCall) = asked done := by
  induction notes generalizing done with
  | nil => rw [List.map_nil, List.append_nil]
  | cons note rest ih =>
    rw [List.map_cons, List.append_cons, ih, asked_concat_of_not_free done rfl]
    rfl

/-! ## The allocator -/

/-- The states of an allocator that is watched, on a run and in a timing pass: they are alike, and
the same allocations and releases are behind them. -/
structure Host.InStep {σ : Type} (h : Host σ) (r s : Recorded σ) : Prop where
  alike : h.Alike r.host s.host
  exchanges_eq : exchanges r.events = exchanges s.events

namespace Host

variable {σ : Type} {h : Host σ} {start : σ} {r s : Recorded σ}

theorem answer_recorded (h : Host σ) (s : Recorded σ) (call : HostCall) :
    (h.recorded.answer s call).1 = (h.answer s.host call).1 ∧
      (h.recorded.answer s call).2.host = (h.answer s.host call).2 ∧
      exchanges (h.recorded.answer s call).2.events
        = exchanges s.events ++ [(h.answer s.host call).1] := by
  have told : ∀ thread, exchanges (h.recorded.setThread thread s).events = exchanges s.events :=
    fun _ => (exchanges_concat _ _).trans (List.append_nil _)
  cases call with
  | malloc thread size =>
    rw [← told thread]
    exact ⟨rfl, rfl, exchanges_concat _ _⟩
  | free thread address =>
    rw [← told thread]
    exact ⟨rfl, rfl, exchanges_concat _ _⟩

namespace InStep

theorem answer (inStep : h.InStep r s) (call : HostCall) :
    (h.recorded.answer r call).1 = (h.recorded.answer s call).1 ∧
      h.InStep (h.recorded.answer r call).2 (h.recorded.answer s call).2 := by
  obtain ⟨reply, host, events⟩ := answer_recorded h r call
  obtain ⟨reply', host', events'⟩ := answer_recorded h s call
  obtain ⟨same, after⟩ := inStep.alike.answer call
  refine ⟨by rw [reply, reply', same], ?_, ?_⟩
  · rw [host, host']
    exact after
  · rw [events, events', inStep.exchanges_eq, same]

theorem malloc (inStep : h.InStep r s) {thread : ThreadId} {size : UInt32}
    {reply : Except HostError Int64} {r' : Recorded σ}
    (asked : h.recorded.malloc size (h.recorded.setThread thread r) = (reply, r')) :
    ∃ s', h.recorded.malloc size (h.recorded.setThread thread s) = (reply, s') ∧
      h.InStep r' s' := by
  obtain ⟨same, after⟩ := inStep.answer (.malloc thread size)
  have replied : (h.recorded.malloc size (h.recorded.setThread thread r)).1
      = (h.recorded.malloc size (h.recorded.setThread thread s)).1 := (Exchange.malloc.inj same).2.2
  rw [asked] at replied
  have left : (h.recorded.answer r (.malloc thread size)).2 = r' := congrArg Prod.snd asked
  rw [left] at after
  exact ⟨(h.recorded.answer s (.malloc thread size)).2, Prod.ext replied.symm rfl, after⟩

theorem free (inStep : h.InStep r s) {thread : ThreadId} {address : UInt32}
    {reply : Except HostError Unit} {r' : Recorded σ}
    (asked : h.recorded.free address (h.recorded.setThread thread r) = (reply, r')) :
    ∃ s', h.recorded.free address (h.recorded.setThread thread s) = (reply, s') ∧
      h.InStep r' s' := by
  obtain ⟨same, after⟩ := inStep.answer (.free thread address)
  have replied : (h.recorded.free address (h.recorded.setThread thread r)).1
      = (h.recorded.free address (h.recorded.setThread thread s)).1 := (Exchange.free.inj same).2.2
  rw [asked] at replied
  have left : (h.recorded.answer r (.free thread address)).2 = r' := congrArg Prod.snd asked
  rw [left] at after
  exact ⟨(h.recorded.answer s (.free thread address)).2, Prod.ext replied.symm rfl, after⟩

theorem setThread (inStep : h.InStep r s) (indifferent : h.Indifferent start)
    (reached : h.Reaches start r.host) (thread : ThreadId) :
    h.InStep (h.recorded.setThread thread r) s := by
  refine ⟨(indifferent.setThread reached thread).trans inStep.alike, ?_⟩
  rw [← inStep.exchanges_eq]
  exact (exchanges_concat _ _).trans (List.append_nil _)

theorem drainLogs (inStep : h.InStep r s) (indifferent : h.Indifferent start)
    (reached : h.Reaches start r.host) : h.InStep (h.recorded.drainLogs r).2 s := by
  refine ⟨(indifferent.drainLogs reached).trans inStep.alike, ?_⟩
  rw [← inStep.exchanges_eq]
  exact (exchanges_concat _ _).trans (List.append_nil _)

theorem drainNotes (inStep : h.InStep r s) (indifferent : h.Indifferent start)
    (reached : h.Reaches start r.host) : h.InStep (h.recorded.drainNotes r).2 s := by
  refine ⟨(indifferent.drainNotes reached).trans inStep.alike, ?_⟩
  rw [← inStep.exchanges_eq]
  exact (exchanges_concat _ _).trans (List.append_nil _)

end InStep

end Host

/-! ## The table -/

/-- Where a block is that the allocator knows of. -/
def Block.unpinned? (b : Block) : Option UInt32 := if b.pinned then none else some b.address

/-- A table of addresses that holds the unpinned part of the blocks in use. -/
def UnpinnedPart (addresses : OrderedMap AllocationKey UInt32)
    (live : OrderedMap AllocationKey Block) : Prop :=
  ∀ key, addresses.find? key = (live.find? key).bind Block.unpinned?

namespace UnpinnedPart

variable {addresses : OrderedMap AllocationKey UInt32} {live : OrderedMap AllocationKey Block}
  {key : AllocationKey} {block : Block}

theorem empty : UnpinnedPart .empty .empty := fun _ => rfl

theorem insert (part : UnpinnedPart addresses live) {address : UInt32}
    (unpinned : block.unpinned? = some address) (key : AllocationKey) :
    UnpinnedPart (addresses.insert key address) (live.insert key block) := by
  intro key'
  rw [OrderedMap.find?_insert, OrderedMap.find?_insert]
  split
  · exact unpinned.symm
  · exact part key'

/-- A pinned block with a new key leaves the table as it is. -/
theorem insert_pinned (part : UnpinnedPart addresses live) (pinned : block.unpinned? = none)
    (fresh : live.contains key = false) : UnpinnedPart addresses (live.insert key block) := by
  intro key'
  rw [part, OrderedMap.find?_insert]
  split
  · rename_i same
    have absent : live.find? key = none := by
      rw [← Option.isNone_iff_eq_none, ← Option.not_isSome, ← OrderedMap.contains_eq_isSome, fresh]
      rfl
    rw [same, absent]
    exact pinned.symm
  · rfl

theorem erase (part : UnpinnedPart addresses live) (key : AllocationKey) :
    UnpinnedPart (addresses.erase key) (live.erase key) := by
  intro key'
  rw [OrderedMap.find?_erase, OrderedMap.find?_erase]
  split
  · rfl
  · exact part key'

/-- The table knows nothing of a pinned block, so there is nothing to erase. -/
theorem erase_pinned (part : UnpinnedPart addresses live) (found : live.find? key = some block)
    (pinned : block.unpinned? = none) : UnpinnedPart addresses (live.erase key) := by
  intro key'
  rw [part, OrderedMap.find?_erase]
  split
  · rename_i same
    rw [same, found]
    exact pinned
  · rfl

end UnpinnedPart

namespace Heap

variable {σ : Type} {h : Host σ} {palette : Palette} {start : σ}

/-! ## One call -/

theorem place_ok_of_unpinned {size address : UInt32} {host host' : σ}
    (placed : place h size none host = (.ok address, host')) :
    ∃ returned, h.malloc size host = (.ok returned, host') ∧
      acceptReturned size returned h.capacity = .ok address := by
  unfold place at placed
  rcases asked : h.malloc size host with ⟨e | returned, host''⟩
  · rw [asked] at placed
    cases placed
  · rw [asked] at placed
    obtain ⟨accepted, rfl⟩ := Prod.mk.inj placed
    exact ⟨returned, rfl, accepted⟩

theorem place_ok_of_pinned {size address fixed : UInt32} {host host' : σ}
    (placed : place h size (some fixed) host = (.ok address, host')) : host' = host := by
  unfold place at placed
  simp only at placed
  split at placed
  · cases placed
    rfl
  · cases placed

/-- What a run accepts is an address for a timing pass. -/
theorem address_of_accepted {size capacity address : UInt32} {returned : Int64}
    (accepted : acceptReturned size returned capacity = .ok address) :
    (0 ≤ returned ∧ returned ≤ 0xffffffff) ∧ UInt32.ofNat returned.toNatClampNeg = address := by
  obtain ⟨eq, -⟩ := acceptReturned_ok_iff.mp accepted
  have bound := address.toNat_lt
  have natural : returned.toNatClampNeg = address.toNat := by
    rw [Int64.toNatClampNeg, eq, Int.toNat_natCast]
  refine ⟨⟨?_, ?_⟩, ?_⟩
  · rw [Int64.le_iff_toInt_le, eq]
    exact Int.natCast_nonneg _
  · rw [Int64.le_iff_toInt_le, eq]
    show (address.toNat : Int) ≤ 4294967295
    omega
  · rw [natural, UInt32.ofNat_toNat]

/-- Releasing a block in use counts unless the block is pinned. -/
theorem Sound.asked_concat {capacity : UInt32} {done : List Call} {heap : Heap σ} {c : Call}
    {key : AllocationKey} {block : Block} {color : Option Color} (sound : Sound capacity done heap)
    (found : heap.live.find? key = some block) (op : c.op = .free (some block.address) color)
    (id : c.id = some key) :
    asked (done ++ [c]) = asked done + if block.pinned then 0 else 1 := by
  have member : (key, block) ∈ heap.live.entries := OrderedMap.find?_eq_some_iff.mp found
  obtain ⟨m, isHeld, made⟩ := sound.held_of_live member
  have released : c.releases m = true := (Call.releases_iff op made).mpr ⟨id, rfl⟩
  exact asked_concat_free sound.executed (mem_heldBlocks.mpr ⟨isHeld, key, made⟩) released

/-- A timing pass at the place of a run. -/
structure Timed (h : Host σ) (done : List Call) (heap : Heap (Recorded σ))
    (addresses : OrderedMap AllocationKey UInt32) (ops : Nat) (s : Recorded σ) : Prop where
  inStep : h.InStep heap.host s
  part : UnpinnedPart addresses heap.live
  ops_eq : ops = asked done

/-- A timing pass goes through a call to the place of a run. -/
def PassesTo (h : Host σ) (done : List Call) (heap : Heap (Recorded σ))
    (addresses : OrderedMap AllocationKey UInt32) (ops : Nat) (s : Recorded σ) (call : Call) :
    Prop :=
  ∃ addresses' ops' s', Timed h done heap addresses' ops' s' ∧ ∀ rest,
    timingFrom h.recorded addresses ops s (call :: rest)
      = timingFrom h.recorded addresses' ops' s' rest

variable {done : List Call} {heap heap' : Heap (Recorded σ)}
  {addresses : OrderedMap AllocationKey UInt32} {ops : Nat} {s : Recorded σ} {call c : Call}

namespace Timed

/-- An allocation that is left to the allocator is made by both. -/
theorem malloc {size address : UInt32} {color : Option Color} {key : AllocationKey}
    {block : Block} {host : Recorded σ} {bytes : Occupancy} {uncolored : Nat}
    (timed : Timed h done heap addresses ops s) (op : call.op = .malloc size none color)
    (placed : place h.recorded size none (h.recorded.setThread call.thread heap.host)
      = (.ok address, host))
    (named : key = call.id.getD (.address address)) (known : block.unpinned? = some address)
    (done_op : c.op = .malloc size none (some block.color)) :
    PassesTo h (done ++ [c]) ⟨host, bytes, heap.live.insert key block, uncolored⟩ addresses ops s
      call := by
  obtain ⟨returned, replied, accepted⟩ := place_ok_of_unpinned placed
  obtain ⟨range, rfl⟩ := address_of_accepted accepted
  obtain ⟨s', replied', after⟩ := timed.inStep.malloc replied
  subst named
  refine ⟨_, ops + 1, s', ⟨after, timed.part.insert known _, ?_⟩, ?_⟩
  · rw [asked_concat_of_not_free done (by rw [Call.isFree, done_op]), Call.isUnpinnedMalloc,
      done_op, ← timed.ops_eq]
    rfl
  · intro rest
    rw [timingFrom, op]
    simp only [replied', if_pos range]

/-- The release of a block that is not pinned is made by both. -/
theorem free {address : Option UInt32} {color : Option Color} {key : AllocationKey}
    {block : Block} {host : Recorded σ} {bytes : Occupancy}
    (timed : Timed h done heap addresses ops s) (op : call.op = .free address color)
    (named : call.id.or (address.map .address) = some key)
    (found : heap.live.find? key = some block) (unpinned : block.pinned = false)
    (replied : h.recorded.free block.address (h.recorded.setThread call.thread heap.host)
      = (.ok (), host))
    (counted : asked (done ++ [c]) = asked done + if block.pinned then 0 else 1) :
    PassesTo h (done ++ [c]) ⟨host, bytes, heap.live.erase key, heap.uncolored⟩ addresses ops s
      call := by
  obtain ⟨s', replied', after⟩ := timed.inStep.free replied
  have present : addresses.find? key = some block.address := by
    rw [timed.part, found, Option.bind_some, Block.unpinned?, unpinned]
    rfl
  refine ⟨addresses.erase key, ops + 1, s', ⟨after, timed.part.erase key, ?_⟩, ?_⟩
  · rw [counted, ← timed.ops_eq, unpinned]
    rfl
  · intro rest
    rw [timingFrom, op]
    simp only [named, Option.bind_some, present, replied']

/-- A call that asks the allocator for nothing is nothing to a timing pass. -/
theorem skip (timed : Timed h done heap addresses ops s) (told : h.InStep heap'.host s)
    (part : UnpinnedPart addresses heap'.live) (uncounted : asked (done ++ [c]) = asked done)
    (skips : ∀ rest, timingFrom h.recorded addresses ops s (call :: rest)
      = timingFrom h.recorded addresses ops s rest) :
    PassesTo h (done ++ [c]) heap' addresses ops s call :=
  ⟨addresses, ops, s, ⟨told, part, timed.ops_eq.trans uncounted.symm⟩, skips⟩

end Timed

/-- A call that is made on a run is made in a timing pass, or is nothing to it. -/
theorem Applied.timed (indifferent : h.Indifferent start)
    (reached : h.Reaches start heap.host.host) (sound : Sound h.capacity done heap)
    (timed : Timed h done heap addresses ops s)
    (applied : Applied h.recorded palette
      { heap with host := h.recorded.setThread call.thread heap.host } call c heap') :
    PassesTo h (done ++ [c]) heap' addresses ops s call := by
  have told := timed.inStep.setThread indifferent reached call.thread
  cases applied with
  | @malloc size address pinned color key block host bytes op positive placed named fresh marked
      made =>
    -- a pinned block is placed without the allocator, and the table never hears of it
    cases pinned with
    | none => exact timed.malloc op placed named (by rw [made]; rfl) rfl
    | some fixed =>
      have same := place_ok_of_pinned placed
      have unknown : block.unpinned? = none := by
        rw [made]
        rfl
      subst same
      refine timed.skip told (timed.part.insert_pinned unknown fresh)
        (asked_concat_of_not_free done rfl) ?_
      intro rest
      rw [timingFrom, op]
  | @free address color key block host bytes op named found cleared replied =>
    have counted : asked (done ++ [{ call with
        op := .free (some block.address) (some (color.getD block.color)), id := some key }]) = _ :=
      sound.asked_concat found rfl rfl
    cases pinned : block.pinned with
    | false =>
      rw [pinned] at replied
      exact timed.free op named found pinned replied counted
    | true =>
      have unknown : block.unpinned? = none := by rw [Block.unpinned?, if_pos pinned]
      have absent : addresses.find? key = none := by
        rw [timed.part, found]
        exact unknown
      rw [if_pos pinned] at replied counted
      cases replied
      refine timed.skip told (timed.part.erase_pinned found unknown) counted ?_
      intro rest
      rw [timingFrom, op]
      simp only [named, Option.bind_some, absent]
  | sleep op =>
    refine timed.skip told timed.part ?_ ?_
    · rw [asked_concat_of_not_free done (by rw [Call.isFree, op]), Call.isUnpinnedMalloc, op]
      rfl
    · intro rest
      rw [timingFrom, op]
  | annotate op valid =>
    refine timed.skip told timed.part ?_ ?_
    · rw [asked_concat_of_not_free done (by rw [Call.isFree, op]), Call.isUnpinnedMalloc, op]
      rfl
    · intro rest
      rw [timingFrom, op]

/-- What is collected is nothing to a timing pass. -/
theorem Timed.collect (timed : Timed h done heap addresses ops s)
    (indifferent : h.Indifferent start) (reached : h.recorded.Reaches (.start start) heap.host)
    (o o' : Origin) (calls : List Call) (notes : List Note) :
    Timed h (done ++ notes.map o'.noteCall) (heap.collect h.recorded o (.ok calls)).heap addresses
      ops s where
  inStep := by
    rw [collect_host]
    exact (timed.inStep.drainLogs indifferent (reached.seen (seenAs_recorded h))).drainNotes
      indifferent (reached.drainLogs.seen (seenAs_recorded h))
  part := by
    rw [collect_live]
    exact timed.part
  ops_eq := by
    rw [asked_append_notes]
    exact timed.ops_eq

/-- A step of a run is a step of a timing pass, or none. -/
theorem step_timed {index : Nat} {calls : List Call} (indifferent : h.Indifferent start)
    (reached : h.recorded.Reaches (.start start) heap.host) (sound : Sound h.capacity done heap)
    (timed : Timed h done heap addresses ops s)
    (ok : (heap.step h.recorded palette index call).result = .ok calls) :
    PassesTo h (done ++ calls) (heap.step h.recorded palette index call).heap addresses ops s
      call := by
  obtain ⟨c, heap', applied, -, rfl, -⟩ := step_ok ok
  obtain ⟨addresses', ops', s', timed', passes⟩ :=
    applied.timed indifferent (reached.seen (seenAs_recorded h)) sound timed
  refine ⟨addresses', ops', s', ?_, passes⟩
  rw [step_of_applied index applied, List.append_cons]
  exact timed'.collect indifferent (applied.host (reached.setThread call.thread)) _ _ _ _

/-! ## Many calls -/

theorem steps_timed {index : Nat} {calls made : List Call} (indifferent : h.Indifferent start)
    (reached : h.recorded.Reaches (.start start) heap.host) (sound : Sound h.capacity done heap)
    (timed : Timed h done heap addresses ops s)
    (ok : (heap.steps h.recorded palette index calls).result = .ok made) :
    ∃ addresses' ops' s', Timed h (done ++ made) (heap.steps h.recorded palette index calls).heap
        addresses' ops' s' ∧ timingFrom h.recorded addresses ops s calls = (.ok ops', s') := by
  -- with the invariant goes that of memory, which tells the block of each release
  induction calls generalizing heap index done made addresses ops s with
  | nil =>
    cases ok
    refine ⟨addresses, ops, s, ?_, rfl⟩
    rw [List.append_nil]
    exact timed
  | cons call rest ih =>
    cases first : (heap.step h.recorded palette index call).result with
    | error e =>
      rw [steps_cons_of_error first] at ok
      cases ok
    | ok calls =>
      obtain ⟨heap_eq, result_eq⟩ := steps_cons_of_ok rest first
      rw [result_eq] at ok
      obtain ⟨tail, more, rfl⟩ := exists_of_map_ok ok
      obtain ⟨addresses₁, ops₁, s₁, timed₁, passes⟩ :=
        step_timed indifferent reached sound timed first
      obtain ⟨addresses', ops', s', timed', passed⟩ :=
        ih (host_step reached first) (sound.step first) timed₁ more
      rw [heap_eq, ← List.append_assoc]
      exact ⟨addresses', ops', s', timed', (passes rest).trans passed⟩

end Heap

/-! ## Whole runs -/

section Runs

variable {σ : Type} {h : Host σ} {palette : Palette} {host : σ} {calls : List Call} {r : Run}

/-- A timing pass that does what a run does. -/
structure TimesRun (h : Host σ) (palette : Palette) (host : σ) (calls : List Call) (r : Run) :
    Prop where
  /-- It succeeds, and counts the allocations and releases of blocks that are not pinned. -/
  ops_eq : (timing h host calls).1
    = .ok (r.trace.calls.countP Call.isUnpinnedMalloc + unpinnedFrees r.trace.calls)
  /-- Watching the allocator makes no difference to either. -/
  run_eq : (run h.recorded palette (.start host) calls).1 = .ok r
  timing_eq : (timing h.recorded (.start host) calls).1 = (timing h host calls).1
  /-- The same is asked on behalf of the same threads, with the same replies. -/
  exchanges_eq : exchanges (timing h.recorded (.start host) calls).2.events
    = exchanges (run h.recorded palette (.start host) calls).2.events

theorem timesRun_of_indifferent (indifferent : h.Indifferent host)
    (ok : (run h palette host calls).1 = .ok r) : TimesRun h palette host calls r := by
  have watched : (run h.recorded palette (.start host) calls).1 = .ok r := by
    rw [(run_recorded h palette host calls).1, ok]
  have timing_eq := (timing_recorded h host calls).1
  obtain ⟨-, ⟨notes, made, noted, stepped, trace, -⟩, -⟩ := run_ok watched
  -- neither has asked for anything before the setup
  have before : Heap.Timed h [] (Heap.start h.recorded (.start host)) .empty 0 (.start host) :=
    ⟨⟨.refl host, rfl⟩, .empty, rfl⟩
  have setup : Heap.Timed h notes (Heap.setup h.recorded (.start host)).heap .empty 0
      (.start host) := by
    obtain ⟨front, eq, -, rfl⟩ := Heap.collect_ok noted
    cases eq
    exact before.collect indifferent .refl .setup .setup [] _
  obtain ⟨addresses, ops, s, timed, passed⟩ := Heap.steps_timed indifferent
    (Heap.host_setup h.recorded (.start host)) (Heap.Sound.setup noted) setup stepped
  have pass : timing h.recorded (.start host) calls = (.ok ops, s) := passed
  refine ⟨?_, watched, timing_eq, ?_⟩
  · rw [← timing_eq, pass, trace, timed.ops_eq]
    rfl
  · rw [pass, run_host watched]
    exact timed.inStep.exchanges_eq.symm

/-- A timing pass asks an allocator for the same allocations and releases as a run that succeeds,
from the same state and on behalf of the same threads, as long as the replies do not depend on
queues that are drained and on threads that ask for nothing; and it counts the allocations that are
not pinned and the releases of blocks that are not.  First-fit allocators are like that, in every
state. -/
theorem timing_of_run (palette : Palette) (calls : List Call) (r : Run) :
    (∀ {σ : Type} (h : Host σ) (host : σ), h.Indifferent host →
      (run h palette host calls).1 = .ok r → TimesRun h palette host calls r) ∧
    ∀ (capacity : UInt32) (s : FirstFit), (run (FirstFit.host capacity) palette s calls).1 = .ok r →
      TimesRun (FirstFit.host capacity) palette s calls r := by
  constructor
  · intro σ h host indifferent ok
    exact timesRun_of_indifferent indifferent ok
  · intro capacity s ok
    exact timesRun_of_indifferent (FirstFit.indifferent capacity s) ok

/-- Of a block, a pinned block and a release, two calls reach an allocator that annotates what it
does, on a run and in a timing pass. -/
theorem timing_of_run_of_twoBlocks :
    (FirstFit.host 8).Indifferent { FirstFit.empty 8 with annotating := true } ∧
    ∃ r, (run (FirstFit.host 8) .default { FirstFit.empty 8 with annotating := true } twoBlocks).1
        = .ok r ∧
      TimesRun (FirstFit.host 8) .default { FirstFit.empty 8 with annotating := true } twoBlocks r ∧
      r.trace.calls.countP Call.isUnpinnedMalloc + unpinnedFrees r.trace.calls = 2 := by
  have indifferent := FirstFit.indifferent 8 { FirstFit.empty 8 with annotating := true }
  obtain ⟨r, ok⟩ : ∃ r, (run (FirstFit.host 8) .default
      { FirstFit.empty 8 with annotating := true } twoBlocks).1 = .ok r := ⟨_, rfl⟩
  have times := (timing_of_run .default twoBlocks r).1 _ _ indifferent ok
  have counted : (timing (FirstFit.host 8) { FirstFit.empty 8 with annotating := true }
      twoBlocks).1 = .ok 2 := rfl
  rw [times.ops_eq] at counted
  exact ⟨indifferent, r, ok, times, Except.ok.inj counted⟩

end Runs

end Heapscope
