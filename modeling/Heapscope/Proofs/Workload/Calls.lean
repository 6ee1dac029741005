import Heapscope.Proofs.Note
import Heapscope.Proofs.Workload.Faults

/-!
# Calls of a workload

Every call of a workload that compiles is made by one of its nodes: an allocation of at least one
byte, a release that names its block, a pause, or a note with all that its kind needs.  It starts
after time zero.  Names are local to the thread of the call.

* `Node.Makes` -- the calls that a node can make;
* `makes_of_compile_ok` -- every call of a workload is made by a node.
-/

namespace Heapscope

/-! ## What the attributes of a node say -/

namespace Attributes

variable {a : Attributes}

/-- The name of a block, without the blanks around it. -/
def blockName? (a : Attributes) : Option String := (a.values.find? "id").bind Attribute.id?

theorem malloc_ok {action : Action} (ok : a.malloc = .ok action) :
    ∃ size pinned color, action = .malloc size pinned color a.blockName? ∧ size ≠ 0 := by
  unfold malloc at ok
  obtain ⟨v, sized, ok⟩ := exists_of_bind_ok ok
  obtain ⟨size, given, ok⟩ := exists_of_bind_ok ok
  obtain ⟨pinned, -, ok⟩ := exists_of_bind_ok ok
  obtain ⟨color, -, ok⟩ := exists_of_bind_ok ok
  obtain ⟨id, named, ok⟩ := exists_of_bind_ok ok
  cases ok
  have name : id = a.blockName? := (a.get?_ok named).1
  have positive := (a.size?_ok sized).1
  rw [a.require_ok given] at positive
  refine ⟨size, pinned, color, by rw [name], ?_⟩
  rintro rfl
  exact positive rfl

theorem free_ok {action : Action} (ok : a.free = .ok action) :
    (∃ name, action = .freeId name ∧ a.blockName? = some name) ∨
      ∃ address, action = .freeAddress address := by
  unfold free at ok
  obtain ⟨id, named, ok⟩ := exists_of_bind_ok ok
  obtain ⟨address, -, ok⟩ := exists_of_bind_ok ok
  have name : id = a.blockName? := (a.get?_ok named).1
  cases id with
  | none =>
    cases address with
    | none => cases ok
    | some address =>
      cases ok
      exact .inr ⟨address, rfl⟩
  | some id =>
    cases address with
    | none =>
      cases ok
      exact .inl ⟨id, rfl, name.symm⟩
    | some address => cases ok

theorem opacity?_inUnit {value : String} {x : Binary64} (read : Attribute.opacity? value = some x) :
    x.inUnit = true := by
  unfold Attribute.opacity? at read
  obtain ⟨y, -, read⟩ := Option.bind_eq_some_iff.mp read
  split at read
  · rename_i inUnit
    cases read
    exact inUnit
  · cases read

/-- What an element says of a note is complete. -/
theorem note_ok {note : Note} (ok : a.note = .ok note) : note.Complete := by
  unfold Attributes.note at ok
  obtain ⟨kind, -, ok⟩ := exists_of_bind_ok ok
  obtain ⟨v, -, ok⟩ := exists_of_bind_ok ok
  obtain ⟨address, -, ok⟩ := exists_of_bind_ok ok
  obtain ⟨size, sized, ok⟩ := exists_of_bind_ok ok
  obtain ⟨target, aimed, ok⟩ := exists_of_bind_ok ok
  obtain ⟨color, tinted, ok⟩ := exists_of_bind_ok ok
  obtain ⟨alpha, faded, ok⟩ := exists_of_bind_ok ok
  -- what a kind needs is an attribute, and an attribute that is present has been read
  have present : ∀ name, needs kind = some name → a.values.contains name = true := by
    intro name needed
    cases absent : a.values.contains name with
    | true => rfl
    | false =>
      rw [needed, Option.filter_some_pos (by simp [absent])] at ok
      cases ok
  split at ok
  · cases ok
  · cases ok
    refine ⟨?_, (a.size?_ok sized).1, ?_⟩
    · unfold Note.HasField
      cases kind with
      | remove mark => trivial
      | add mark =>
        cases mark with
        | range => exact (a.size?_ok sized).2.trans (present _ rfl)
        | text => exact (OrderedMap.contains_eq_isSome _ _).symm.trans (present _ rfl)
        | pointer => exact (a.get?_ok aimed).2.trans (present _ rfl)
        | color => exact (a.get?_ok tinted).2.trans (present _ rfl)
    · rintro x rfl
      obtain ⟨value, -, read⟩ := Option.bind_eq_some_iff.mp (a.get?_ok faded).1.symm
      exact opacity?_inUnit read

end Attributes

namespace Node

variable {n : Node} {s : Step}

/-- The name that a node gives to a block, without the blanks around it. -/
def blockName? (n : Node) : Option String := (n.attributes.find? "id").bind Attribute.id?

theorem action_of_operation (operation : n.operation? = some s) :
    ∃ a : Attributes, a.values = n.attributes ∧ (a.malloc = .ok s.action ∨ a.free = .ok s.action ∨
      s.action = .sleep ∨ ∃ note, a.note = .ok note ∧ s.action = .annotate note) := by
  have passed : n.check = .ok (.step s) := by
    unfold operation? at operation
    split at operation
    · rename_i passed
      cases operation
      exact passed
    · cases operation
  unfold check at passed
  cases named : Element.ofName? n.element with
  | none =>
    rw [named] at passed
    cases passed
  | some element =>
    rw [named] at passed
    obtain ⟨-, -, passed⟩ := exists_of_bind_ok passed
    simp only at passed
    split at passed
    · cases passed
    · obtain ⟨duration, -, passed⟩ := exists_of_bind_ok passed
      refine ⟨⟨element, n.attributes⟩, rfl, ?_⟩
      cases element with
      | thread => cases passed
      | malloc =>
        obtain ⟨action, read, passed⟩ := exists_of_bind_ok passed
        cases passed
        exact .inl read
      | free =>
        obtain ⟨action, read, passed⟩ := exists_of_bind_ok passed
        cases passed
        exact .inr (.inl read)
      | sleep =>
        obtain ⟨length, -, passed⟩ := exists_of_bind_ok passed
        cases passed
        exact .inr (.inr (.inl rfl))
      | annotate =>
        obtain ⟨note, read, passed⟩ := exists_of_bind_ok passed
        cases passed
        exact .inr (.inr (.inr ⟨note, read, rfl⟩))

/-- The calls that a node can make. -/
inductive Makes (n : Node) (c : Call) : Prop
  | malloc {size : UInt32} {pinned : Option UInt32} {color : Option Color}
      (op : c.op = .malloc size pinned color) (positive : size ≠ 0)
      (id : c.id = n.blockName?.map (.inThread c.thread))
  | freeName {name : String} (op : c.op = .free none none) (named : n.blockName? = some name)
      (id : c.id = some (.inThread c.thread name))
  | freeAddress {address : UInt32} (op : c.op = .free (some address) none)
      (id : c.id = some (.address address))
  | sleep (op : c.op = .sleep)
  | annotate {note : Note} (op : c.op = .annotate note) (complete : note.Complete)

theorem makes_of_operation (operation : n.operation? = some s) (config : CompilerConfig)
    (thread : Nat) (clock : Micros) : n.Makes (s.call config thread clock) := by
  obtain ⟨a, values, made⟩ := action_of_operation operation
  have name : a.blockName? = n.blockName? := by
    unfold Attributes.blockName? blockName?
    rw [values]
  have op : (s.call config thread clock).op = s.action.op := rfl
  have id : (s.call config thread clock).id = s.action.key (UInt32.ofNat thread) := rfl
  rcases made with allocates | releases | sleeps | ⟨note, notes, annotates⟩
  · obtain ⟨size, pinned, color, action, positive⟩ := Attributes.malloc_ok allocates
    rw [action] at op id
    rw [name] at id
    exact .malloc op positive id
  · rcases Attributes.free_ok releases with ⟨x, action, named⟩ | ⟨address, action⟩
    · rw [action] at op id
      rw [name] at named
      exact .freeName op named id
    · rw [action] at op id
      exact .freeAddress op id
  · rw [sleeps] at op
    exact .sleep op
  · rw [annotates] at op
    exact .annotate op (Attributes.note_ok notes)

end Node

/-! ## Calls of a schedule -/

variable {config : CompilerConfig} {nodes : List Node} {calls : List Call}

theorem validate_of_compile_ok (ok : compile config nodes = .ok calls) :
    config.validate = .ok () := by
  unfold compile at ok
  obtain ⟨⟨⟩, valid, -⟩ := exists_of_bind_ok ok
  exact valid

/-- Threads start after time zero. -/
theorem zero_lt_offset (valid : config.validate = .ok ()) : .zero < config.offset := by
  unfold CompilerConfig.validate at valid
  split at valid
  · cases valid
  · split at valid
    · cases valid
    · rename_i late
      exact (Micros.zero_lt_or_eq config.offset).resolve_right late

theorem offset_le_startAfter (config : CompilerConfig) (earlier : List Step) :
    config.offset ≤ startAfter config earlier := by
  have bound := config.offset.count.toNat_lt
  unfold startAfter
  rw [Micros.le_iff, Micros.toNat_ofNatSaturating]
  omega

/-- The call of a thread is that of one of its operations. -/
theorem step_of_mem_callsOfWorkload {c : Call}
    (member : c ∈ (callsOfWorkload config nodes).flatten) :
    ∃ body ∈ threadBodies nodes, ∃ s ∈ body.filterMap Node.operation?,
      ∃ thread clock, c = s.call config thread clock ∧ config.offset ≤ clock := by
  obtain ⟨thread, isThread, member⟩ := List.mem_flatten.mp member
  obtain ⟨⟨steps, number⟩, numbered, rfl⟩ := List.mem_map.mp isThread
  obtain ⟨body, isBody, rfl⟩ := List.mem_map.mp (List.fst_mem_of_mem_zipIdx numbered)
  obtain ⟨i, lt, rfl⟩ := List.mem_mapIdx.mp member
  exact ⟨body, isBody, _, List.getElem_mem lt, number, _, rfl, offset_le_startAfter config _⟩

/-- The operations of the threads are those of the nodes. -/
theorem mem_operations_of_threadBodies {items : List Item} (checks : Item.Checks nodes items)
    {body : List Node} {s : Step} (isBody : body ∈ threadBodies nodes)
    (member : s ∈ body.filterMap Node.operation?) :
    s ∈ (Node.preorderAll nodes).filterMap Node.operation? := by
  refine checks.perm.mem_iff.mp (List.mem_append.mpr ?_)
  have among : body = nodes ∨ body ∈ Node.bodies (Node.preorderAll nodes) := by
    unfold threadBodies at isBody
    split at isBody
    · exact .inr isBody
    · exact List.mem_cons.mp isBody
  rcases among with rfl | inner
  · exact .inl member
  · obtain ⟨m, below, operation⟩ := List.mem_filterMap.mp member
    exact .inr (List.mem_filterMap.mpr ⟨m, List.mem_flatten.mpr ⟨body, inner, below⟩, operation⟩)

/-- Every call of a workload is made by a node, after time zero. -/
theorem makes_of_compile_ok (ok : compile config nodes = .ok calls) {c : Call} (member : c ∈ calls) :
    .zero < c.time ∧ ∃ n ∈ Node.preorderAll nodes, n.Makes c := by
  have offset := zero_lt_offset (validate_of_compile_ok ok)
  obtain ⟨items, checked, rfl⟩ := compile_ok ok
  have checks := Item.checks_of_ofNodes_ok checked
  have scheduled : c ∈ schedule config items := (List.mergeSort_perm _ _).mem_iff.mp member
  obtain ⟨body, isBody, s, own, thread, clock, rfl, le⟩ :=
    step_of_mem_callsOfWorkload ((schedule_weaves_workload config checks).perm.mem_iff.mp scheduled)
  obtain ⟨n, below, operation⟩ :=
    List.mem_filterMap.mp (mem_operations_of_threadBodies checks isBody own)
  refine ⟨?_, n, below, Node.makes_of_operation operation config thread clock⟩
  show Micros.zero < clock
  rw [Micros.lt_iff] at offset ⊢
  exact Nat.lt_of_lt_of_le offset (Micros.le_iff.mp le)

end Heapscope
