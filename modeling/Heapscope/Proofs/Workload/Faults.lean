import Heapscope.Proofs.Except
import Heapscope.Proofs.OrderedMap
import Heapscope.Proofs.Workload.Compile

/-!
# Faults of a workload

A node may have many faults.  They are listed here in the order in which they are looked for,
without regard to what is done once one is found.  The check of a node reports the first of its
faults, and compiling reports the first fault of the document.

* `Node.faults` -- all faults of a node: its element, its attribute names, its children, its
  duration, and then what its element asks of the other attributes;
* `Node.reports_check` -- the check of a node reports the first;
* `compile_reports_first_fault` -- compiling reports the first of the first node that has any.
-/

namespace Heapscope

/-! ## Attributes -/

namespace Attributes

variable {α : Type}

/-- An attribute that is present and does not have its form. -/
def malformed (a : Attributes) (form? : String → Option α) (fault : AttributeFault)
    (name : String) : List CompileError :=
  match a.values.find? name with
  | none => []
  | some value => if (form? value).isSome then [] else [a.invalid name value fault]

def notWhole (a : Attributes) : String → List CompileError :=
  a.malformed Attribute.number? .notWhole

/-- A number of bytes that is zero. -/
def zeroSize (a : Attributes) (name : String) : List CompileError :=
  if (a.values.find? name).bind Attribute.number? = some 0 then [a.invalid name "0" .zeroSize]
  else []

def absent (a : Attributes) (name : String) : List CompileError :=
  if a.values.contains name then [] else [a.missing name]

/-- The kind that the value of an attribute names, blanks around it ignored. -/
def kindOfValue? (value : String) : Option NoteKind :=
  NoteKind.ofName? (String.ofList (trim value.toList))

/-- The attribute that a note of the kind it names would need. -/
def needed? (a : Attributes) : Option String :=
  (a.values.find? "type").bind kindOfValue? >>= needs

/-- The faults of the attributes that an element has of its own. -/
def ownFaults (a : Attributes) : List CompileError :=
  match a.element with
  | .thread => []
  | .malloc =>
    [a.notWhole "size" ++ a.zeroSize "size", a.absent "size", a.notWhole "addr",
      a.malformed Attribute.color? .notColor "color", a.malformed Attribute.id? .emptyId "id"].flatten
  | .free =>
    [a.malformed Attribute.id? .emptyId "id", a.notWhole "addr",
      match a.values.contains "id", a.values.contains "addr" with
      | true, true => [.bothReferences]
      | false, false => [.noReference]
      | _, _ => []].flatten
  | .sleep => a.absent "duration"
  | .annotate =>
    [a.malformed kindOfValue? .unknownKind "type" ++ a.absent "type",
      a.notWhole "address", a.absent "address", a.notWhole "size" ++ a.zeroSize "size",
      a.notWhole "target", a.malformed Attribute.color? .notColor "color",
      a.malformed Attribute.opacity? .notOpacity "alpha", a.needed?.toList.flatMap a.absent].flatten

end Attributes

/-- All faults of a node, in the order in which they are looked for. -/
def Node.faults (n : Node) : List CompileError :=
  match Element.ofName? n.element with
  | none => [.unknownElement n.element]
  | some element =>
    let a : Attributes := ⟨element, n.attributes⟩
    [(a.values.keys.filter fun k => !element.attributes.contains k).map (.unknownAttribute element),
      if element ≠ .thread ∧ n.children ≠ [] then [.unexpectedChildren element] else [],
      a.malformed Attribute.duration? .notDuration "duration", a.ownFaults].flatten

namespace Attributes

variable {α : Type} (a : Attributes)

theorem reports_checkNames : Reports a.checkNames
    ((a.values.keys.filter fun k => !a.element.attributes.contains k).map
      (.unknownAttribute a.element)) := by
  unfold checkNames
  rw [← List.head?_filter]
  cases a.values.keys.filter fun k => !a.element.attributes.contains k with
  | nil => rfl
  | cons name rest => rfl

section Reading

variable {form? : String → Option α} {fault : AttributeFault} {name : String}

theorem reports_get? : Reports (a.get? form? fault name) (a.malformed form? fault name) := by
  unfold get? malformed
  cases a.values.find? name with
  | none => rfl
  | some value =>
    show Reports ((form? value).elim _ _) (if (form? value).isSome then [] else _)
    cases form? value with
    | none => rfl
    | some v => rfl

theorem get?_ok {v : Option α} (ok : a.get? form? fault name = .ok v) :
    v = (a.values.find? name).bind form? ∧ v.isSome = a.values.contains name := by
  unfold get? at ok
  rw [OrderedMap.contains_eq_isSome]
  cases present : a.values.find? name with
  | none =>
    rw [present] at ok
    cases ok
    exact ⟨rfl, rfl⟩
  | some value =>
    rw [present] at ok
    cases read : form? value with
    | none =>
      simp only [read] at ok
      cases ok
    | some v =>
      simp only [read] at ok
      cases ok
      exact ⟨read.symm, rfl⟩

/-- What has been read is present. -/
theorem reports_require {v : Option α} (read : v.isSome = a.values.contains name) :
    Reports (a.require name v) (a.absent name) := by
  unfold absent
  rw [← read]
  cases v with
  | none => rfl
  | some v => rfl

theorem require_ok {v : Option α} {w : α} (ok : a.require name v = .ok w) : v = some w := by
  cases v with
  | none => cases ok
  | some v =>
    cases ok
    rfl

theorem reports_size? : Reports (a.size? name) (a.notWhole name ++ a.zeroSize name) := by
  unfold size?
  refine a.reports_get?.bind ?_
  intro n ok
  unfold zeroSize
  rw [← (a.get?_ok ok).1]
  split
  · exact .throw _ []
  · exact .pure n

theorem size?_ok {n : Option UInt32} (ok : a.size? name = .ok n) :
    n ≠ some 0 ∧ n.isSome = a.values.contains name := by
  unfold size? at ok
  obtain ⟨m, read, ok⟩ := exists_of_bind_ok ok
  split at ok
  · cases ok
  · rename_i positive
    cases ok
    exact ⟨positive, (a.get?_ok read).2⟩

end Reading

theorem reports_malloc (element : a.element = .malloc) : Reports a.malloc a.ownFaults := by
  unfold malloc ownFaults
  rw [element]
  refine a.reports_size?.bind ?_
  intro n read
  refine (a.reports_require (a.size?_ok read).2).bind ?_
  intro size _
  refine a.reports_get?.bind ?_
  intro pinned _
  refine a.reports_get?.bind ?_
  intro color _
  refine a.reports_get?.bind ?_
  intro id _
  exact .pure _

theorem reports_free (element : a.element = .free) : Reports a.free a.ownFaults := by
  unfold free ownFaults
  rw [element]
  refine a.reports_get?.bind ?_
  intro id named
  refine a.reports_get?.bind ?_
  intro address placed
  rw [← (a.get?_ok named).2, ← (a.get?_ok placed).2]
  cases id <;> cases address <;> rfl

theorem reports_kind :
    Reports a.kind (a.malformed kindOfValue? .unknownKind "type" ++ a.absent "type") := by
  unfold kind
  refine a.reports_get?.bind ?_
  intro kind read
  exact a.reports_require (a.get?_ok read).2

theorem kind_ok {kind : NoteKind} (ok : a.kind = .ok kind) : a.needed? = needs kind := by
  unfold Attributes.kind at ok
  obtain ⟨v, read, ok⟩ := exists_of_bind_ok ok
  obtain ⟨value, -⟩ := a.get?_ok read
  rw [a.require_ok ok] at value
  unfold needed?
  rw [show (a.values.find? "type").bind kindOfValue? = some kind from value.symm]
  rfl

theorem reports_note (element : a.element = .annotate) : Reports a.note a.ownFaults := by
  unfold note ownFaults
  rw [element]
  refine a.reports_kind.bind ?_
  intro kind known
  refine a.reports_get?.bind ?_
  intro n read
  refine (a.reports_require (a.get?_ok read).2).bind ?_
  intro address _
  refine a.reports_size?.bind ?_
  intro size _
  refine a.reports_get?.bind ?_
  intro target _
  refine a.reports_get?.bind ?_
  intro color _
  refine a.reports_get?.bind ?_
  intro alpha _
  rw [a.kind_ok known]
  cases needs kind with
  | none => rfl
  | some name =>
    show Reports _ (a.absent name ++ [] ++ [])
    unfold absent
    cases present : a.values.contains name with
    | false => simp [present, Option.filter]; rfl
    | true => simp [present, Option.filter]; rfl

end Attributes

namespace Node

theorem reports_check (n : Node) : Reports n.check n.faults := by
  unfold check faults
  cases Element.ofName? n.element with
  | none => rfl
  | some element =>
    refine (Attributes.reports_checkNames ⟨element, n.attributes⟩).bind ?_
    intro _ _
    show Reports (if element ≠ .thread ∧ n.children ≠ [] then _ else _) _
    by_cases parent : element ≠ .thread ∧ n.children ≠ []
    · rw [if_pos parent, if_pos parent]
      exact .throw _ _
    · rw [if_neg parent, if_neg parent]
      refine (Attributes.reports_get? _).bind ?_
      intro duration read
      rw [List.flatten_singleton]
      cases element with
      | thread => exact .pure _
      | malloc => exact (Attributes.reports_malloc _ rfl).map _
      | free => exact (Attributes.reports_free _ rfl).map _
      | sleep => exact (Attributes.reports_require _ (Attributes.get?_ok _ read).2).map _
      | annotate => exact (Attributes.reports_note _ rfl).map _

theorem check_congr {n m : Node} (element : n.element = m.element)
    (attributes : n.attributes = m.attributes) (children : n.children = [] ↔ m.children = []) :
    n.check = m.check := by
  unfold check
  rw [element, attributes]
  simp only [ne_eq, children]

end Node

/-! ## The first fault of a document -/

mutual

/-- A node is checked before the nodes below it. -/
theorem reports_ofNode : ∀ n : Node, Reports (Item.ofNode n) (n.preorder.flatMap Node.faults)
  | ⟨element, attributes, children⟩ => by
    rw [Item.ofNode, Node.preorder_eq, List.flatMap_cons]
    refine (Node.reports_check _).bind ?_
    intro found passed
    rcases Node.check_ok passed with ⟨rfl, -⟩ | ⟨s, rfl, -, childless⟩
    · exact (reports_ofNodes children).map _
    · rw [childless]
      exact .pure _

theorem reports_ofNodes :
    ∀ nodes : List Node, Reports (Item.ofNodes nodes) ((Node.preorderAll nodes).flatMap Node.faults)
  | [] => by
    rw [Item.ofNodes]
    exact .pure _
  | n :: rest => by
    rw [Item.ofNodes, Node.preorderAll, List.flatMap_append]
    refine (reports_ofNode n).bind ?_
    intro item _
    exact (reports_ofNodes rest).map _

end

theorem reports_compile {config : CompilerConfig} (valid : config.validate = .ok ())
    (nodes : List Node) :
    Reports (compile config nodes) ((Node.preorderAll nodes).flatMap Node.faults) := by
  unfold compile
  rw [valid]
  exact (reports_ofNodes nodes).map _

/-- With valid settings, a workload compiles exactly when all its nodes pass their checks; otherwise
the error is that of the first node in preorder that does not.  The check of a node looks at its
element, at its attributes and at whether it has children.  It fails with the first of the node's
faults. -/
theorem compile_reports_first_fault {config : CompilerConfig} (valid : config.validate = .ok ())
    (nodes : List Node) :
    ((∃ calls, compile config nodes = .ok calls)
      ↔ ∀ n ∈ Node.preorderAll nodes, ∃ found, n.check = .ok found) ∧
    (∀ e, compile config nodes = .error e
      ↔ ∃ front n back, Node.preorderAll nodes = front ++ n :: back ∧
        (∀ m ∈ front, ∃ found, m.check = .ok found) ∧ n.check = .error e) ∧
    (∀ n m : Node, n.element = m.element → n.attributes = m.attributes →
      (n.children = [] ↔ m.children = []) → n.check = m.check) ∧
    ∀ n : Node, ((∃ found, n.check = .ok found) ↔ n.faults = []) ∧
      ∀ e, n.check = .error e ↔ n.faults.head? = some e := by
  have reports := reports_compile valid nodes
  refine ⟨?_, ?_, fun n m => Node.check_congr, fun n => ⟨n.reports_check.ok_iff, fun e =>
    n.reports_check.error_iff⟩⟩
  · rw [reports.ok_iff, List.flatMap_eq_nil_iff]
    exact forall₂_congr fun n _ => n.reports_check.ok_iff.symm
  · intro e
    rw [reports.error_iff, List.head?_flatMap, List.findSome?_eq_some_iff]
    refine exists_congr fun front => exists_congr fun n => exists_congr fun back => ?_
    simp only [Node.reports_check _ |>.ok_iff, Node.reports_check _ |>.error_iff,
      List.head?_eq_none_iff]
    tauto

/-- The second node below a thread has two faults, and there is another one behind the thread. -/
theorem compile_reports_first_fault_of_three :
    CompilerConfig.validate {} = .ok () ∧
      compile {} [.thread [.freeId "a", (Node.malloc 0).attr "name" "b"], .bare "alloc"]
        = .error (.unknownAttribute .malloc "name") := by
  have valid : CompilerConfig.validate {} = .ok () := rfl
  refine ⟨valid, ((compile_reports_first_fault valid _).2.1 _).mpr ?_⟩
  refine ⟨[.thread [.freeId "a", (Node.malloc 0).attr "name" "b"], .freeId "a"],
    (Node.malloc 0).attr "name" "b", [.bare "alloc"], rfl, ?_, rfl⟩
  simp only [List.forall_mem_cons]
  exact ⟨⟨_, rfl⟩, ⟨_, rfl⟩, fun _ member => absurd member List.not_mem_nil⟩

end Heapscope
