import Heapscope.Proofs.Run.Workloads

/-!
# Who owns a block

A block in use was allocated by a call of the run that no later call has released.  In the run of a
workload its key tells which one: a name belongs to one thread, so a thread releases by name only
what it allocated itself, and it meets a key in use only if it uses a name of its own twice, or if
the allocator hands out the address of a block without a name again.

* `Call.Places` -- an allocation of a workload, and what it is in the trace;
* `owner_of_live` -- a block in use has an owner;
* `names_are_owned` -- releases by name and keys in use, in the run of a workload.
-/

namespace Heapscope

/-- An allocation as it was made: the block has the key that the call asked for, or else its
address. -/
structure Call.Places (call made : Call) : Prop where
  isMalloc : call.isMalloc = true
  thread_eq : made.thread = call.thread
  key : ∃ address, made.result = some address ∧ made.id = some (call.id.getD (.address address))

/-- The allocation that a block in use belongs to: one of the calls has asked for it, under a name of
its own or under none, and no later call has released it. -/
structure Owner (calls done : List Call) (id : Option AllocationKey) (e : AllocationKey × Block)
    (own : Call) : Prop where
  isHeld : own ∈ held done
  made : own.allocation? = some e
  asked : ∃ m ∈ calls, m.Places own ∧ m.id = id

section Owners

variable {σ : Type} {h : Host σ} {palette : Palette} {host : σ} {calls done : List Call}
  {heap heap' : Heap σ}

theorem Heap.Applied.places {call made : Call} (applied : Heap.Applied h palette heap call made heap')
    (isMalloc : made.isMalloc = true) : call.Places made := by
  cases applied with
  | malloc op positive placed named fresh marked paint =>
    subst named
    exact ⟨by rw [Call.isMalloc, op], rfl, _, rfl, rfl⟩
  | free op => cases isMalloc
  | sleep op | annotate op =>
    rw [Call.isMalloc, op] at isMalloc
    cases isMalloc

/-- Annotations are no allocations. -/
theorem isMalloc_of_mem_notes {made : Call} {o : Origin} {notes : List Note}
    (member : made ∈ notes.map o.noteCall) : made.isMalloc = false := by
  obtain ⟨note, -, rfl⟩ := List.mem_map.mp member
  rfl

/-- Every allocation of a trace is one of the calls. -/
theorem places_of_steps {index : Nat} {trace : List Call}
    (ok : (heap.steps h palette index calls).result = .ok trace) :
    ∀ made ∈ trace, made.isMalloc = true → ∃ call ∈ calls, call.Places made := by
  induction calls generalizing heap index trace with
  | nil =>
    cases ok
    intro made member
    cases member
  | cons call rest ih =>
    cases first : (heap.step h palette index call).result with
    | error e =>
      rw [Heap.steps_cons_of_error first] at ok
      cases ok
    | ok now =>
      rw [(Heap.steps_cons_of_ok rest first).2] at ok
      obtain ⟨later, more, rfl⟩ := exists_of_map_ok ok
      obtain ⟨done, heap', applied, -, rfl, -⟩ := Heap.step_ok first
      intro made member isMalloc
      rcases List.mem_append.mp member with here | behind
      · rcases List.mem_cons.mp here with rfl | note
        · exact ⟨call, List.mem_cons_self, applied.places isMalloc⟩
        · rw [isMalloc_of_mem_notes note] at isMalloc
          cases isMalloc
      · obtain ⟨own, among, places⟩ := ih more made behind isMalloc
        exact ⟨own, List.mem_cons_of_mem _ among, places⟩

theorem places_of_reaches (reaches : Heap.Reaches h palette host calls done heap) :
    ∀ made ∈ done, made.isMalloc = true → ∃ call ∈ calls, call.Places made := by
  obtain ⟨notes, trace, noted, stepped, rfl, -⟩ := reaches
  obtain ⟨rfl, -⟩ := setup_notes noted
  intro made member isMalloc
  rcases List.mem_append.mp member with note | later
  · rw [isMalloc_of_mem_notes note] at isMalloc
    cases isMalloc
  · exact places_of_steps stepped made later isMalloc

theorem owner_of_live (reaches : Heap.Reaches h palette host calls done heap) {key : AllocationKey}
    {block : Block} (found : heap.live.find? key = some block) :
    ∃ own ∈ held done, own.allocation? = some (key, block) ∧ ∃ m ∈ calls, m.Places own := by
  have sound := Heap.Sound.of_reaches reaches
  obtain ⟨own, isHeld, made⟩ := sound.held_of_live (OrderedMap.find?_eq_some_iff.mp found)
  have isMalloc := Call.isMalloc_of_allocation made
  exact ⟨own, isHeld, made, places_of_reaches reaches own (mem_of_mem_held isHeld) isMalloc⟩

end Owners

/-! ## Owners in the run of a workload -/

theorem Node.Makes.id_of_isMalloc {n : Node} {c : Call} (makes : n.Makes c)
    (isMalloc : c.isMalloc = true) : c.id = n.blockName?.map (.inThread c.thread) := by
  cases makes with
  | malloc op positive id => exact id
  | freeName op | freeAddress op | sleep op | annotate op =>
    rw [Call.isMalloc, op] at isMalloc
    cases isMalloc

/-- An allocation under a name was asked for under this name by the thread of the name. -/
theorem Node.Makes.of_name {n : Node} {m own : Call} {thread : ThreadId} {name : String}
    (makes : n.Makes m) (places : m.Places own) (id : own.id = some (.inThread thread name)) :
    m.thread = thread ∧ m.id = some (.inThread thread name) := by
  obtain ⟨address, -, key⟩ := places.key
  have asked := makes.id_of_isMalloc places.isMalloc
  rw [id] at key
  cases given : n.blockName? with
  | none =>
    rw [given] at asked
    rw [asked] at key
    cases key
  | some name' =>
    rw [given] at asked
    rw [asked] at key
    obtain ⟨rfl, rfl⟩ := AllocationKey.inThread_inj.mp (Option.some.inj key)
    exact ⟨rfl, asked⟩

/-- An allocation under an address was asked for without a name, and has this address. -/
theorem Node.Makes.of_address {n : Node} {m own : Call} {a : UInt32} (makes : n.Makes m)
    (places : m.Places own) (id : own.id = some (.address a)) : m.id = none ∧ own.result = some a := by
  obtain ⟨address, result, key⟩ := places.key
  have asked := makes.id_of_isMalloc places.isMalloc
  rw [id] at key
  cases given : n.blockName? with
  | none =>
    rw [given] at asked
    rw [asked] at key
    cases key
    exact ⟨asked, result⟩
  | some name =>
    rw [given] at asked
    rw [asked] at key
    cases key

section Runs

variable {config : CompilerConfig} {nodes : List Node} {calls front back done : List Call} {c : Call}
  {σ : Type} {h : Host σ} {palette : Palette} {host : σ} {heap heap' : Heap σ}

/-- The calls in front of a call of a workload are calls of it. -/
theorem makes_of_mem_front (ok : compile config nodes = .ok calls)
    (split : calls = front ++ c :: back) {m : Call} (member : m ∈ front) :
    ∃ n ∈ Node.preorderAll nodes, n.Makes m :=
  (makes_of_compile_ok ok (split ▸ List.mem_append_left _ member)).2

/-- A block in use under a name was allocated under this name by the thread of the name. -/
theorem owner_of_name (ok : compile config nodes = .ok calls) (split : calls = front ++ c :: back)
    (reaches : Heap.Reaches h palette host front done heap) {thread : ThreadId} {name : String}
    {block : Block} (found : heap.live.find? (.inThread thread name) = some block) :
    ∃ own, own.thread = thread ∧
      Owner front done (some (.inThread thread name)) (.inThread thread name, block) own := by
  obtain ⟨own, isHeld, made, m, member, places⟩ := owner_of_live reaches found
  obtain ⟨n, -, makes⟩ := makes_of_mem_front ok split member
  obtain ⟨asked, id⟩ := makes.of_name places (Call.id_result_of_allocation made).1
  exact ⟨own, places.thread_eq.trans asked, isHeld, made, m, member, places, id⟩

/-- A block in use under an address begins there, and was allocated without a name. -/
theorem owner_of_address (ok : compile config nodes = .ok calls)
    (split : calls = front ++ c :: back) (reaches : Heap.Reaches h palette host front done heap)
    {a : UInt32} {block : Block} (found : heap.live.find? (.address a) = some block) :
    block.address = a ∧ ∃ own, Owner front done none (.address a, block) own := by
  obtain ⟨own, isHeld, made, m, member, places⟩ := owner_of_live reaches found
  obtain ⟨n, -, makes⟩ := makes_of_mem_front ok split member
  obtain ⟨id, result⟩ := Call.id_result_of_allocation made
  obtain ⟨unnamed, start⟩ := makes.of_address places id
  rw [result] at start
  exact ⟨Option.some.inj start, own, isHeld, made, m, member, places, unnamed⟩

/-- A note is not refused for a key. -/
theorem validate_ne_duplicateKey {note : Note} {capacity : UInt32} {key : String} :
    note.validate capacity ≠ .error (.duplicateKey key) := by
  intro error
  rcases Note.validate_error error with
    ⟨field, absurd, -⟩ | ⟨absurd, -⟩ | ⟨x, absurd, -⟩ | ⟨address, size, absurd⟩
  all_goals cases absurd

/-- A call is refused for a key only when it allocates, and the key is that of a block in use. -/
theorem Heap.Refused.of_duplicateKey {k : String}
    (refused : Heap.Refused h heap c (.invalid (.duplicateKey k))) :
    ∃ size pinned color address host', c.op = .malloc size pinned color ∧
      Heap.place h size pinned heap.host = (.ok address, host') ∧
      k = (c.id.getD (.address address)).text ∧
      ∃ block, heap.live.find? (c.id.getD (.address address)) = some block := by
  generalize eq : Refusal.invalid (.duplicateKey k) = e at refused
  cases refused with
  | empty | unnamed | unknown => cases eq
  | unplaced op positive refused =>
    rcases Heap.place_error refused with ⟨a, -, rfl⟩ | ⟨-, ⟨returned, rfl⟩ | ⟨lack, rfl⟩⟩
    · cases eq
    · cases eq
    · cases lack <;> cases eq
  | taken op positive placed live =>
    cases eq
    rw [OrderedMap.contains_eq_isSome, Option.isSome_iff_exists] at live
    exact ⟨_, _, _, _, _, op, placed, rfl, live⟩
  | @occupied _ _ _ _ _ fault | @unoccupied _ _ _ _ fault => cases fault <;> cases eq
  | @unreleased _ _ _ _ _ lack => cases lack <;> cases eq
  | note op invalid =>
    cases eq
    exact absurd invalid validate_ne_duplicateKey

/-- A run is refused for a key only at an allocation under a key in use. -/
theorem Stops.of_duplicateKey {index : Option Nat} {k : String}
    (stops : Stops h palette host calls index (.invalid (.duplicateKey k))) :
    ∃ front c back done heap, calls = front ++ c :: back ∧
      Heap.Reaches h palette host front done heap ∧ index = some front.length ∧
      Heap.Refused h (heap.told h c) c (.invalid (.duplicateKey k)) := by
  generalize eq : Refusal.invalid (.duplicateKey k) = e at stops
  cases stops with
  | setup queued invalid | annotated split reaches applied queued invalid =>
    cases eq
    exact absurd invalid validate_ne_duplicateKey
  | refused split reaches refused => exact ⟨_, _, _, _, _, split, reaches, rfl, refused⟩

/-- Names of threads never meet: a name of a thread has a key that no other name and no other thread
has.  In the run of a workload a release by name therefore takes out the one block that is in use
under the name, and its thread has allocated this block under the same name.  A run is refused for a
key in use only where a thread asks again for a name that it still holds, or where a block without a
name is placed on the first byte of another one in use. -/
theorem names_are_owned (ok : compile config nodes = .ok calls) (h : Host σ) (palette : Palette)
    (host : σ) :
    (∀ thread thread' name name', AllocationKey.inThread thread name = .inThread thread' name'
      ↔ thread = thread' ∧ name = name') ∧
    (∀ c ∈ calls, ∃ n ∈ Node.preorderAll nodes, n.Makes c) ∧
    (∀ front c back done heap, calls = front ++ c :: back →
      Heap.Reaches h palette host front done heap →
      ∀ name, c.isFree = true → c.id = some (.inThread c.thread name) →
      ∀ made heap', Heap.Applied h palette (heap.told h c) c made heap' →
        heap'.live = heap.live.erase (.inThread c.thread name) ∧
        ∃ block own, heap.live.find? (.inThread c.thread name) = some block ∧
          made.releases own = true ∧ own.thread = c.thread ∧
          Owner front done c.id (.inThread c.thread name, block) own) ∧
    ∀ e k, (run h palette host calls).1 = .error e → e.refusal = .invalid (.duplicateKey k) →
      ∃ front c back done heap, calls = front ++ c :: back ∧ e.callIndex = some front.length ∧
        Heap.Reaches h palette host front done heap ∧
        ∃ size pinned color, c.op = .malloc size pinned color ∧
          ((∃ name, c.id = some (.inThread c.thread name) ∧
              k = (AllocationKey.inThread c.thread name).text ∧
              ∃ block own, own.thread = c.thread ∧
                Owner front done c.id (.inThread c.thread name, block) own) ∨
            (c.id = none ∧ ∃ address host', Heap.place h size pinned (heap.told h c).host
                = (.ok address, host') ∧ k = (AllocationKey.address address).text ∧
              ∃ block own, block.address = address ∧
                Owner front done c.id (.address address, block) own)) := by
  refine ⟨fun _ _ _ _ => AllocationKey.inThread_inj,
    fun c member => (makes_of_compile_ok ok member).2, ?releases, ?keys⟩
  case releases =>
    intro front c back done heap split reaches name isFree id made heap' applied
    cases applied with
    | malloc op | sleep op | annotate op =>
      rw [Call.isFree, op] at isFree
      cases isFree
    | @free address color key block host' bytes op named found cleared told =>
      rw [id] at named
      cases named
      obtain ⟨own, thread, owner⟩ := owner_of_name ok split reaches found
      refine ⟨rfl, block, own, found, ?_, thread, id.symm ▸ owner⟩
      exact (Call.releases_iff rfl owner.made).mpr ⟨rfl, rfl⟩
  case keys =>
    intro e k error refusal
    rcases stops_of_run_error (inOrder_of_compile_ok ok) error with ⟨-, empty⟩ | stops
    · rw [empty] at refusal
      cases refusal
    · rw [refusal] at stops
      obtain ⟨front, c, back, done, heap, split, reaches, index, refused⟩ := stops.of_duplicateKey
      obtain ⟨size, pinned, color, address, host', op, placed, rfl, block, found⟩ :=
        refused.of_duplicateKey
      refine ⟨front, c, back, done, heap, split, index, reaches, size, pinned, color, op, ?_⟩
      obtain ⟨n, -, makes⟩ := makes_of_split ok split
      have asked := makes.id_of_isMalloc (by rw [Call.isMalloc, op])
      cases given : n.blockName? with
      | some name =>
        rw [given] at asked
        rw [asked] at found ⊢
        obtain ⟨own, thread, owner⟩ := owner_of_name ok split reaches found
        exact .inl ⟨name, rfl, rfl, block, own, thread, owner⟩
      | none =>
        rw [given] at asked
        rw [asked] at found ⊢
        obtain ⟨start, own, owner⟩ := owner_of_address ok split reaches found
        exact .inr ⟨rfl, address, host', placed, rfl, block, own, start, owner⟩

/-- Two threads use one name, and the first of them releases its block. -/
def sharedName : List Node :=
  [(Node.malloc 2).attr "id" "a", .thread [(Node.malloc 2).attr "id" "a"], .freeId " a "]

def sharedMalloc (thread : ThreadId) : Call :=
  ⟨.malloc 2 none none, some (.inThread thread "a"), none, thread, ⟨1⟩, ⟨500000⟩⟩

def sharedFree : Call :=
  ⟨.free none none, some (.inThread 0 "a"), none, 0, ⟨500001⟩, ⟨500000⟩⟩

theorem compile_sharedName :
    compile {} sharedName = .ok [sharedMalloc 0, sharedMalloc 1, sharedFree] := by
  let malloc : Item := .step ⟨.malloc 2 none none (some "a"), none⟩
  have checked : Item.ofNodes sharedName
      = .ok [malloc, .thread [malloc], .step ⟨.freeId "a", none⟩] := rfl
  refine compile_eq_of_inOrder rfl checked (by cbv) ?_
  exact inOrder_of_firstUnsortedFrom
    (show firstUnsorted [sharedMalloc 0, sharedMalloc 1, sharedFree] = none by decide)

theorem names_are_owned_of_sharedName :
    ∃ done heap, Heap.Reaches (FirstFit.host 8) .default (FirstFit.empty 8)
        [sharedMalloc 0, sharedMalloc 1] done heap ∧
      ∃ made heap' block own, Heap.Applied (FirstFit.host 8) .default
          (heap.told (FirstFit.host 8) sharedFree) sharedFree made heap' ∧
        made.releases own = true ∧ own.thread = 0 ∧
        Owner [sharedMalloc 0, sharedMalloc 1] done (some (.inThread 0 "a"))
          (.inThread 0 "a", block) own := by
  obtain ⟨done, heap, reaches, calls, stepped⟩ : ∃ done heap,
      Heap.Reaches (FirstFit.host 8) .default (FirstFit.empty 8)
        [sharedMalloc 0, sharedMalloc 1] done heap ∧
      ∃ calls, (heap.step (FirstFit.host 8) .default 2 sharedFree).result = .ok calls :=
    ⟨_, _, ⟨_, _, rfl, rfl, rfl, rfl⟩, _, rfl⟩
  obtain ⟨made, heap', applied, -⟩ := Heap.step_ok stepped
  obtain ⟨-, -, releases, -⟩ :=
    names_are_owned compile_sharedName (FirstFit.host 8) .default (FirstFit.empty 8)
  obtain ⟨-, block, own, -, released, thread, owner⟩ :=
    releases [sharedMalloc 0, sharedMalloc 1] sharedFree [] done heap rfl reaches "a" rfl rfl made
      heap' applied
  exact ⟨done, heap, reaches, made, heap', block, own, applied, released, thread, owner⟩

end Runs

end Heapscope
