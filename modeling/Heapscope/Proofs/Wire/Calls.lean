import Heapscope.Proofs.Except
import Heapscope.Proofs.Wire.Records
import Heapscope.Wire.Call

/-!
# Calls that are read as they were written

A call is one flat object: the fields of its operation stand among its own, and many of them are
left out when there is nothing to say.  The names never clash, so the call takes its own fields and
hands the others on, and each operation finds all of its fields there.

* `Note.reads_fields`, `Op.ofFields_fields` -- the fields of a note and of an operation;
* `Call.Survives` -- calls whose numbers survive; `Call.ofJson_toJson` -- they are read back.
-/

namespace Heapscope

open Record (Reads stored)

/-! ## Notes -/

namespace Note

/-- The opacity of a note survives, if it has one. -/
def Survives (a : Note) : Prop := ∀ x ∈ a.alpha, x.Survives

theorem readName_name (reading : Json.Reading) (depth : Nat) (k : NoteKind) :
    Json.readName reading NoteKind.ofName? depth (.text k.name) = .ok k := by
  cases k with
  | add mark => cases mark <;> rfl
  | remove mark => cases mark <;> rfl

/-- The slots of a note, all of which have been read. -/
def slots (a : Note) : Slots :=
  ⟨some a.kind, some a.address, a.size.map some, a.target.map some, a.text.map some,
    a.color.map some, a.alpha.map some⟩

theorem finish_slots (a : Note) : a.slots.finish = .ok a := by
  obtain ⟨kind, address, size, target, text, color, alpha⟩ := a
  cases size <;> cases target <;> cases text <;> cases color <;> cases alpha <;> rfl

/-- The fields of a note are read into its slots. -/
theorem reads_fields (reading : Json.Reading) (depth : Nat) {a : Note} (survives : a.Survives) :
    Reads (Slots.read reading depth) {} a.fields a.slots := by
  obtain ⟨kind, address, size, target, text, color, alpha⟩ := a
  unfold fields slots
  simp only [List.append_assoc, List.cons_append, List.nil_append]
  refine .field (fun o => Slots.mk o none none none none none none)
    (readName_name reading depth kind) ?_ rfl
  refine .field (fun o => Slots.mk kind o none none none none none)
    (Json.readUInt32_nat address) ?_ rfl
  refine .field? (fun o => Slots.mk kind address o none none none none)
    (fun n _ => Json.readAs_nat n) ?_ fun _ => rfl
  refine .field? (fun o => Slots.mk kind address (size.map some) o none none none)
    (fun n _ => Json.readAs_nat n) ?_ fun _ => rfl
  refine .field? (fun o => Slots.mk kind address (size.map some) (target.map some) o none none)
    (fun s _ => Json.readAs_text s) ?_ fun _ => rfl
  refine .field? (fun o => Slots.mk kind address (size.map some) (target.map some) (text.map some) o
    none) (fun c _ => Json.readAs_color c) ?_ fun _ => rfl
  rw [← List.append_nil (Json.field? _ _ alpha)]
  exact .field? (fun o => Slots.mk kind address (size.map some) (target.map some) (text.map some)
    (color.map some) o) (fun x present => (survives x present).readAs) .nil fun _ => rfl

end Note

/-! ## Operations -/

namespace Op

/-- The numbers of an operation survive. -/
def Survives : Op → Prop
  | annotate a => a.Survives
  | malloc .. | free .. | sleep => True

/-- The keys of the fields of all operations. -/
def keys : List String := ["size", "addr", "color", "address", "type", "target", "text", "alpha"]

/-- The fields of an operation hold whole numbers, texts and opacities. -/
theorem forall_fields {P : String × Json → Prop}
    (whole : ∀ key ∈ keys, ∀ n : UInt32, P (key, .nat n.toNat))
    (text : ∀ key ∈ keys, ∀ s, P (key, .text s)) {op : Op}
    (alpha : ∀ a, op = annotate a → ∀ x ∈ a.alpha, P ("alpha", x.toJson)) :
    ∀ f ∈ op.fields, P f := by
  cases op with
  | malloc size pinned color =>
    simp only [fields, List.forall_mem_append, List.forall_mem_cons, Json.forall_mem_field?]
    exact ⟨⟨whole _ (by decide) _, fun n _ => whole _ (by decide) n⟩,
      fun c _ => whole _ (by decide) c.value⟩
  | free address color =>
    simp only [fields, List.forall_mem_append, Json.forall_mem_field?]
    exact ⟨fun n _ => whole _ (by decide) n, fun c _ => whole _ (by decide) c.value⟩
  | sleep => exact nofun
  | annotate a =>
    simp only [fields, Note.fields, List.forall_mem_append, List.forall_mem_cons,
      Json.forall_mem_field?]
    exact ⟨⟨⟨⟨⟨⟨text _ (by decide) _, whole _ (by decide) _, nofun⟩,
      fun n _ => whole _ (by decide) n⟩, fun n _ => whole _ (by decide) n⟩,
      fun s _ => text _ (by decide) s⟩, fun c _ => whole _ (by decide) c.value⟩, alpha a rfl⟩

theorem keys_fields (op : Op) : ∀ f ∈ op.fields, f.1 ∈ keys := by
  refine forall_fields (fun _ key _ => key) (fun _ key _ => key) fun _ _ _ _ => ?_
  show "alpha" ∈ keys
  decide

theorem printable_fields (op : Op) : ∀ f ∈ op.fields, f.2.Printable :=
  forall_fields (fun _ _ _ => Json.printable_numeral _) (fun _ _ s => Json.printable_text s)
    fun _ _ x _ => x.printable_toJson

theorem strict_fields {op : Op} (survives : op.Survives) (depth : Nat) :
    ∀ f ∈ op.fields, f.2.strict depth = true := by
  refine forall_fields (fun _ _ n => Json.strict_nat depth n) (fun _ _ _ => rfl) ?_
  rintro a rfl x present
  exact (survives x present).strict depth

/-- An operation is read back from its fields. -/
theorem ofFields_fields {op : Op} (survives : op.Survives) :
    ofFields op.name (stored op.fields) = .ok op := by
  cases op with
  | malloc size pinned color =>
    have reads : Reads MallocSlots.read {} (malloc size pinned color).fields
        ⟨some size, pinned.map some, color.map some⟩ := by
      simp only [fields, List.cons_append]
      refine .field (fun o => MallocSlots.mk o none none) (Json.readUInt32_nat size) ?_ rfl
      refine .field? (fun o => MallocSlots.mk size o none) (fun n _ => Json.readAs_nat n) ?_
        fun _ => rfl
      rw [← List.append_nil (Json.field? _ _ color)]
      exact .field? (fun o => MallocSlots.mk size (pinned.map some) o)
        (fun c _ => Json.readAs_color c) .nil fun _ => rfl
    show (readFields MallocSlots.read {} (stored _) >>= _) = _
    rw [reads]
    cases pinned <;> cases color <;> rfl
  | free address color =>
    have reads : Reads FreeSlots.read {} (free address color).fields
        ⟨address.map some, color.map some⟩ := by
      simp only [fields]
      refine .field? (fun o => FreeSlots.mk o none) (fun n _ => Json.readAs_nat n) ?_ fun _ => rfl
      rw [← List.append_nil (Json.field? _ _ color)]
      exact .field? (fun o => FreeSlots.mk (address.map some) o) (fun c _ => Json.readAs_color c)
        .nil fun _ => rfl
    show (readFields FreeSlots.read {} (stored _) >>= _) = _
    rw [reads]
    cases address <;> cases color <;> rfl
  | sleep => rfl
  | annotate a =>
    have reads := Note.reads_fields .held Json.depthLimit survives
    show (readFields (Note.Slots.read .held Json.depthLimit) {} (stored a.fields) >>= _) = _
    rw [reads]
    show annotate <$> a.slots.finish = _
    rw [a.finish_slots]
    rfl

end Op

/-! ## Calls -/

namespace Call

/-- The numbers of a call survive: its times, and the opacity of its note. -/
structure Survives (c : Call) : Prop where
  op : c.op.Survives
  time : c.time.Survives
  duration : c.duration.Survives

/-- The keys of the fields that a call reads for itself. -/
def ownKeys : List String := ["id", "return", "threadId", "time", "duration"]

namespace Slots

/-- A field that is not one of the call's own is held back. -/
theorem read_other (depth : Nat) (s : Slots) {key : String} (other : key ∉ ownKeys) {v : Json}
    (strict : v.strict depth = true) :
    read depth s key v = .ok { s with held := s.held ++ [(some key, v)] } := by
  unfold read
  split
  case h_6 => exact if_pos strict
  all_goals exact absurd (by decide) other

theorem strict_of_read_other {depth : Nat} {s s' : Slots} {key : String} (other : key ∉ ownKeys)
    {v : Json} (ok : read depth s key v = .ok s') : v.strict depth = true := by
  unfold read at ok
  split at ok
  case h_6 =>
    split at ok
    · assumption
    · cases ok
  all_goals exact absurd (by decide) other

/-- Whoever has read fields that are not the call's own could hold them. -/
theorem strict_of_readFields {depth : Nat} {fields rest : List (String × Json)}
    (others : ∀ f ∈ fields, f.1 ∉ ownKeys) {s s' : Slots}
    (ok : readFields (read depth) s (stored (fields ++ rest)) = .ok s') :
    ∀ f ∈ fields, f.2.strict depth = true := by
  induction fields generalizing s with
  | nil => exact nofun
  | cons f fields ih =>
    obtain ⟨other, others⟩ := List.forall_mem_cons.mp others
    obtain ⟨next, read_first, read_rest⟩ := exists_of_bind_ok
      (show (read depth s f.1 f.2 >>= fun next => readFields (read depth) next
        (stored (fields ++ rest))) = .ok s' from ok)
    exact List.forall_mem_cons.mpr ⟨strict_of_read_other other read_first, ih others read_rest⟩

/-- A call has the thread and the time of the slots it is made from. -/
theorem finish_ok {s : Slots} {c : Call} (ok : s.finish = .ok c) :
    s.thread = some c.thread ∧ s.time = some c.time := by
  obtain ⟨id, result, thread, time, duration, held⟩ := s
  unfold finish at ok
  obtain ⟨thread', thread_ok, ok⟩ := exists_of_bind_ok ok
  obtain ⟨time', time_ok, ok⟩ := exists_of_bind_ok ok
  obtain ⟨duration', -, ok⟩ := exists_of_bind_ok ok
  cases thread with
  | none => cases thread_ok
  | some _ =>
    cases thread_ok
    cases time with
    | none => cases time_ok
    | some _ =>
      cases time_ok
      simp only at ok
      split at ok
      · obtain ⟨name, -, ok⟩ := exists_of_bind_ok ok
        obtain ⟨op, -, ok⟩ := exists_of_bind_ok ok
        cases ok
        exact ⟨rfl, rfl⟩
      · cases ok

/-- Fields that are not the call's own are held back. -/
theorem reads_others (depth : Nat) {fields : List (String × Json)}
    (others : ∀ f ∈ fields, f.1 ∉ ownKeys) (strict : ∀ f ∈ fields, f.2.strict depth = true)
    (s : Slots) : Reads (read depth) s fields { s with held := s.held ++ stored fields } := by
  induction fields generalizing s with
  | nil =>
    have same : { s with held := s.held ++ stored [] } = s := by
      rw [stored, List.map_nil, List.append_nil]
    rw [same]
    exact .nil
  | cons f fields ih =>
    have first := read_other depth s (others f List.mem_cons_self) (strict f List.mem_cons_self)
    have more := ih (fun g member => others g (List.mem_cons_of_mem f member))
      (fun g member => strict g (List.mem_cons_of_mem f member))
      { s with held := s.held ++ [(some f.1, f.2)] }
    rw [List.append_assoc] at more
    exact .cons first more

end Slots

/-- What a call holds back for its operation. -/
def held (c : Call) : List (String × Json) := ("function", .text c.op.name) :: c.op.fields

/-- Exactly one of the fields that are held back names the function. -/
theorem partition_held (c : Call) :
    ((stored c.held).partition fun f => f.1 == some "function")
      = ([(some "function", .text c.op.name)], stored c.op.fields) := by
  have others : ∀ f ∈ stored c.op.fields, (f.1 == some "function") = false := by
    intro f member
    obtain ⟨g, inside, rfl⟩ := List.mem_map.mp member
    refine beq_false_of_ne fun named => ?_
    have key := c.op.keys_fields g inside
    rw [Option.some.inj named] at key
    exact absurd key (by decide)
  rw [List.partition_eq_filter_filter]
  show ((_ :: stored c.op.fields).filter _, (_ :: stored c.op.fields).filter _) = _
  rw [List.filter_cons_of_pos (by rfl), List.filter_cons_of_neg (by simp),
    List.filter_eq_nil_iff.mpr fun f member => by simp [others f member],
    List.filter_eq_self.mpr fun f member => by simp [others f member]]

theorem others_held (c : Call) : ∀ f ∈ c.held, f.1 ∉ ownKeys := by
  refine List.forall_mem_cons.mpr ⟨(by decide : "function" ∉ ownKeys), fun f member => ?_⟩
  exact (show ∀ key ∈ Op.keys, key ∉ ownKeys by decide) f.1 (c.op.keys_fields f member)

/-- The fields of a call in front of its duration. -/
def front (c : Call) : List (String × Json) :=
  c.held ++ (Json.field? "id" AllocationKey.toJson c.id
    ++ (Json.field? "return" (fun n => .nat n.toNat) c.result
    ++ [("threadId", .nat c.thread.toNat), ("time", c.time.toJson)]))

theorem fields_eq (c : Call) : c.fields = c.front ++ [("duration", c.duration.toJson)] := by
  unfold fields front held
  simp only [List.append_assoc, List.cons_append, List.nil_append]

/-- The slots of a call whose fields have been read, except for the duration. -/
def frontSlots (c : Call) : Slots :=
  ⟨c.id.map some, c.result.map some, some c.thread, some c.time, none, stored c.held⟩

theorem reads_front (depth : Nat) {c : Call} (strict : ∀ f ∈ c.held, f.2.strict depth = true)
    (time : c.time.Survives) : Reads (Slots.read depth) {} c.front c.frontSlots := by
  have first := Slots.reads_others depth c.others_held strict {}
  rw [List.nil_append] at first
  unfold front frontSlots
  refine first.append ?_
  refine .field? (fun o => Slots.mk o none none none none (stored c.held))
    (fun k _ => Json.readAs_key k) ?_ fun _ => rfl
  refine .field? (fun o => Slots.mk (c.id.map some) o none none none (stored c.held))
    (fun n _ => Json.readAs_nat n) ?_ fun _ => rfl
  refine .field (fun o => Slots.mk (c.id.map some) (c.result.map some) o none none (stored c.held))
    (Json.readUInt32_nat c.thread) ?_ rfl
  exact .field (fun o => Slots.mk (c.id.map some) (c.result.map some) c.thread o none
    (stored c.held)) time.read .nil rfl

/-- The fields of a call are read into its slots. -/
theorem reads_fields (depth : Nat) {c : Call} (survives : c.Survives) :
    Reads (Slots.read depth) {} c.fields { c.frontSlots with duration := some c.duration } := by
  have strict : ∀ f ∈ c.held, f.2.strict depth = true :=
    List.forall_mem_cons.mpr ⟨rfl, Op.strict_fields survives.op depth⟩
  rw [fields_eq]
  refine (reads_front depth strict survives.time).append ?_
  exact .field (fun o => Slots.mk (c.id.map some) (c.result.map some) c.thread c.time o
    (stored c.held)) survives.duration.read .nil rfl

/-- A call whose numbers survive is read as it was written. -/
theorem ofJson_toJson (depth : Nat) {c : Call} (survives : c.Survives) :
    ofJson (depth + 1) c.toJson = .ok c := by
  have finished : Slots.finish { c.frontSlots with duration := some c.duration } = .ok c := by
    unfold Slots.finish frontSlots
    simp only [filled, Option.elim_some, partition_held]
    show (Op.ofFields c.op.name (stored c.op.fields) >>= _) = _
    rw [Op.ofFields_fields survives.op]
    obtain ⟨op, id, result, thread, time, duration⟩ := c
    cases id <;> cases result <;> rfl
  show (readFields (Slots.read depth) {} (stored c.fields) >>= _) = _
  rw [reads_fields depth survives]
  exact finished

/-- A call whose time survives is read with its time and its thread, if it is read at all. -/
theorem ofJson_toJson_ok {depth : Nat} {c c' : Call} (time : c.time.Survives)
    (ok : ofJson (depth + 1) c.toJson = .ok c') : c'.time = c.time ∧ c'.thread = c.thread := by
  obtain ⟨s, read, finished⟩ := exists_of_bind_ok
    (show (readFields (Slots.read depth) {} (stored c.fields) >>= Slots.finish) = .ok c' from ok)
  have strict : ∀ f ∈ c.held, f.2.strict depth = true := by
    obtain ⟨rest, split⟩ : ∃ rest, c.fields = c.held ++ rest :=
      ⟨_, c.fields_eq.trans (List.append_assoc ..)⟩
    exact Slots.strict_of_readFields c.others_held (split ▸ read)
  rw [fields_eq, (reads_front depth strict time).readFields_append] at read
  obtain ⟨_, read_last, ⟨⟩⟩ := exists_of_bind_ok
    (show (Slots.read depth c.frontSlots "duration" c.duration.toJson >>= pure) = .ok s from read)
  obtain ⟨duration, -, ⟨⟩⟩ := exists_of_bind_ok
    (show (fill none (Micros.ofJson c.duration.toJson) >>= fun duration =>
      pure { c.frontSlots with duration := duration }) = .ok s from read_last)
  obtain ⟨thread_eq, time_eq⟩ := Slots.finish_ok finished
  exact ⟨(Option.some.inj time_eq).symm, (Option.some.inj thread_eq).symm⟩

/-- Every call can be written. -/
theorem printable_toJson (c : Call) : c.toJson.Printable := by
  refine Json.printable_record ?_
  simp only [fields, List.forall_mem_append, List.forall_mem_cons, Json.forall_mem_field?]
  exact ⟨⟨⟨⟨Json.printable_text _, c.op.printable_fields⟩, fun k _ => k.printable_toJson⟩,
    fun _ _ => Json.printable_numeral _⟩, Json.printable_numeral _, c.time.millis.printable_toJson,
    c.duration.millis.printable_toJson, nofun⟩

theorem printable_listToJson (calls : List Call) : (listToJson calls).Printable :=
  Json.printable_array (List.forall_mem_map.mpr fun c _ => c.printable_toJson)

/-- Calls whose numbers survive are read as they were written, in their order. -/
theorem readArray_listToJson (depth : Nat) {calls : List Call}
    (survive : ∀ c ∈ calls, c.Survives) :
    Json.readArray ofJson (depth + 2) (listToJson calls) = .ok calls := by
  show (calls.map toJson).mapM (ofJson (depth + 1)) = _
  induction calls with
  | nil => rfl
  | cons c calls ih =>
    have first := ofJson_toJson depth (survive c List.mem_cons_self)
    have more := ih fun d member => survive d (List.mem_cons_of_mem c member)
    rw [List.map_cons, List.mapM_cons, first, more]
    rfl

/-- Where a call stands in a trace. -/
def start (c : Call) : Micros × ThreadId := (c.time, c.thread)

/-- Calls whose times survive are read at the times and on the threads they were written with, if
they are read at all. -/
theorem readArray_listToJson_ok (depth : Nat) {calls read : List Call}
    (times : ∀ c ∈ calls, c.time.Survives)
    (ok : Json.readArray ofJson (depth + 2) (listToJson calls) = .ok read) :
    read.map start = calls.map start := by
  change (calls.map toJson).mapM (ofJson (depth + 1)) = .ok read at ok
  induction calls generalizing read with
  | nil =>
    cases ok
    rfl
  | cons c calls ih =>
    obtain ⟨survives, times⟩ := List.forall_mem_cons.mp times
    rw [List.map_cons, List.mapM_cons] at ok
    obtain ⟨c', first, ok⟩ := exists_of_bind_ok ok
    obtain ⟨read', more, ⟨⟩⟩ := exists_of_bind_ok ok
    obtain ⟨time, thread⟩ := ofJson_toJson_ok survives first
    rw [List.map_cons, List.map_cons, ih times more]
    exact congrArg (· :: _) (Prod.ext time thread)

end Call

/-- The order of calls is that of their starts. -/
theorem inOrder_of_starts {calls read : List Call} (inOrder : InOrder calls)
    (same : read.map Call.start = calls.map Call.start) : InOrder read := by
  let inFront := fun p q : Micros × ThreadId => (!(q.1 < p.1 || (q.1 == p.1 && q.2 < p.2))) = true
  have starts : (calls.map Call.start).Pairwise inFront := List.pairwise_map.mpr inOrder
  rw [← same] at starts
  exact List.pairwise_map.mp starts

end Heapscope
