import Heapscope.Proofs.OrderedMap
import Heapscope.Proofs.Wire.Records
import Heapscope.Wire.Workload

/-!
# Workloads that are read as they were written

A node takes one bracket of the text for itself, one for its attributes and one for the array of its
children, and leaves out the last two when they are empty.  A workload is read as it was written if
there are brackets enough for it, and is refused if there are not.  The brackets that a reader has
are enough for nodes up to 63 inside one another, whatever their attributes are, and for no more.

* `Node.nesting`, `Node.brackets` -- how many nodes and how many brackets are inside one another;
* `Node.brackets_bounds` -- two brackets for each node, or one less;
* `Node.ofJson_toJson` -- a node is read as it was written, as far as the brackets go;
* `Node.written_workload_read` -- which workloads are read, and so compile, as they were written.
-/

namespace Heapscope

open Record (stored)

namespace Node

/-! ## How deep workloads go -/

mutual

/-- How many nodes are inside one another, the node itself included. -/
def nesting : Node → Nat
  | ⟨_, _, children⟩ => listNesting children + 1

def listNesting : List Node → Nat
  | [] => 0
  | n :: rest => max (nesting n) (listNesting rest)

end

mutual

/-- How many brackets are open at once in the text of a node. -/
def brackets : Node → Nat
  | ⟨_, attributes, children⟩ =>
    max (if attributes.isEmpty then 0 else 1)
      (if children.isEmpty then 0 else listBrackets children + 1) + 1

def listBrackets : List Node → Nat
  | [] => 0
  | n :: rest => max (brackets n) (listBrackets rest)

end

mutual

/-- A node takes two brackets for each node inside another; the innermost may do with one. -/
theorem brackets_bounds : ∀ n : Node,
    2 * n.nesting ≤ n.brackets + 1 ∧ n.brackets ≤ 2 * n.nesting
  | ⟨_, attributes, children⟩ => by
    have inner := listBrackets_bounds children
    rw [nesting, brackets]
    by_cases leaf : children.isEmpty = true
    · have alone : listNesting children = 0 := by rw [List.isEmpty_iff.mp leaf, listNesting]
      rw [if_pos leaf, alone]
      split <;> omega
    · rw [if_neg leaf]
      split <;> omega

theorem listBrackets_bounds : ∀ nodes : List Node,
    2 * listNesting nodes ≤ listBrackets nodes + 1 ∧ listBrackets nodes ≤ 2 * listNesting nodes
  | [] => by
    rw [listNesting, listBrackets]
    omega
  | n :: rest => by
    have first := brackets_bounds n
    have others := listBrackets_bounds rest
    rw [listNesting, listBrackets]
    omega

end

/-! ## The fields of a node -/

/-- Attributes that were written are inserted in their order. -/
theorem readFields_entries (entries : List (String × String)) (start : OrderedMap String String) :
    readFields (fun m key v => return m.insert key (← v.readString)) start
        (stored (entries.map fun e => (e.1, .text e.2)))
      = .ok (entries.foldl (fun m e => m.insert e.1 e.2) start) := by
  induction entries generalizing start with
  | nil => rfl
  | cons e entries ih => exact ih (start.insert e.1 e.2)

/-- Attributes are read as they were written, unless there is no bracket left for them. -/
theorem readAttributes_attributesJson (depth : Nat) (m : OrderedMap String String) :
    readAttributes depth (attributesJson m) = if 1 ≤ depth then .ok m else .error .malformed := by
  cases depth with
  | zero => rfl
  | succ depth =>
    unfold readAttributes attributesJson Json.record
    refine (readFields_entries m.entries .empty).trans ?_
    exact congrArg Except.ok m.ofList_entries

section Fields

variable (depth : Nat) (s : Slots) (rest : List (Option String × Json))

theorem ofFields_element (element : String) (unread : s.element = none) :
    ofFields depth s ((some "element", .text element) :: rest)
      = ofFields depth { s with element := some element } rest := by
  rw [ofFields, unread]
  rfl

/-- Attributes are left out when there are none; otherwise they take a bracket. -/
theorem ofFields_attributes (m : OrderedMap String String) (unread : s.attributes = none) :
    ofFields depth s
        (stored (if m.isEmpty then [] else [("attributes", attributesJson m)]) ++ rest)
      = if (if m.isEmpty then 0 else 1) ≤ depth then
          ofFields depth { s with attributes := if m.isEmpty then none else some m } rest
        else .error .malformed := by
  by_cases empty : m.isEmpty = true
  · simp [empty, stored, ← unread]
  · simp only [empty, Bool.false_eq_true, if_false]
    show ofFields depth s ((some "attributes", attributesJson m) :: rest) = _
    rw [ofFields, unread]
    show (some <$> readAttributes depth (attributesJson m) >>= _) = _
    rw [readAttributes_attributesJson]
    by_cases room : 1 ≤ depth
    · rw [if_pos room, if_pos room]
      rfl
    · rw [if_neg room, if_neg room]
      rfl

/-- Children are left out when there are none; otherwise they take the brackets inside their own. -/
theorem ofFields_children (children : List Node) (unread : s.children = none)
    (reads : ofChildren depth (.array (listToJson children))
      = if listBrackets children + 1 ≤ depth then .ok children else .error .malformed) :
    ofFields depth s
        (stored (if children.isEmpty then [] else [("children", .array (listToJson children))]))
      = if (if children.isEmpty then 0 else listBrackets children + 1) ≤ depth then
          .ok { s with children := if children.isEmpty then none else some children }
        else .error .malformed := by
  by_cases empty : children.isEmpty = true
  · simp [empty, stored, ofFields, ← unread]
  · simp only [empty, Bool.false_eq_true, if_false]
    show ofFields depth s ((some "children", .array (listToJson children)) :: []) = _
    rw [ofFields, unread]
    show (some <$> ofChildren depth (.array (listToJson children)) >>= _) = _
    rw [reads]
    by_cases room : listBrackets children + 1 ≤ depth
    · rw [if_pos room, if_pos room]
      show ofFields depth _ [] = _
      rw [ofFields]
    · rw [if_neg room, if_neg room]
      rfl

/-- The node whose fields have been read, with nothing where a field was left out. -/
theorem finish_slots (n : Node) :
    Slots.finish ⟨some n.element, if n.attributes.isEmpty then none else some n.attributes,
      if n.children.isEmpty then none else some n.children⟩ = .ok n := by
  obtain ⟨element, attributes, children⟩ := n
  have attributes_eq : (if attributes.isEmpty then none else some attributes).getD .empty
      = attributes := by
    split
    · exact (OrderedMap.isEmpty_iff.mp ‹_›).symm
    · rfl
  have children_eq : (if children.isEmpty then none else some children).getD [] = children := by
    split
    · exact (List.isEmpty_iff.mp ‹_›).symm
    · rfl
  show Except.ok (Node.mk element _ _) = _
  rw [attributes_eq, children_eq]

end Fields

/-! ## Nodes -/

/-- A node whose children are read as they were written, unless there are too few brackets. -/
theorem ofJson_of_children (element : String) (attributes : OrderedMap String String)
    {children : List Node} {depth : Nat} (reads : ofChildren depth (.array (listToJson children))
      = if listBrackets children + 1 ≤ depth then .ok children else .error .malformed) :
    ofJson (depth + 1) (toJson ⟨element, attributes, children⟩)
      = if brackets ⟨element, attributes, children⟩ ≤ depth + 1 then
          .ok ⟨element, attributes, children⟩
        else .error .malformed := by
  rw [toJson, Json.record, ofJson]
  show (ofFields depth {} (stored _) >>= Slots.finish) = _
  unfold stored
  rw [List.map_append, List.map_append, List.append_assoc, brackets]
  show (ofFields depth {} ((some "element", .text element) :: (stored _ ++ stored _)) >>= _) = _
  rw [ofFields_element depth {} _ element rfl, ofFields_attributes depth _ _ attributes rfl,
    ofFields_children depth _ children rfl reads]
  simp only [Nat.add_le_add_iff_right, Nat.max_le]
  by_cases own : (if attributes.isEmpty then 0 else 1) ≤ depth
  · by_cases inner : (if children.isEmpty then 0 else listBrackets children + 1) ≤ depth
    · rw [if_pos own, if_pos inner, if_pos (And.intro own inner)]
      exact finish_slots ⟨element, attributes, children⟩
    · rw [if_pos own, if_neg inner, if_neg (not_and_of_not_right _ inner)]
      rfl
  · rw [if_neg own, if_neg (not_and_of_not_left _ own)]
    rfl

mutual

/-- A node is read as it was written, unless there are too few brackets for it. -/
theorem ofJson_toJson : ∀ (n : Node) (depth : Nat),
    ofJson depth n.toJson = if n.brackets ≤ depth then .ok n else .error .malformed
  | ⟨element, attributes, children⟩, 0 => by
    rw [brackets, if_neg (Nat.not_succ_le_zero _), toJson, Json.record, ofJson]
    rfl
  | ⟨element, attributes, children⟩, 1 => by
    refine ofJson_of_children element attributes ?_
    rw [ofChildren, if_neg (Nat.not_succ_le_zero _)]
    rfl
  | ⟨element, attributes, children⟩, depth + 2 => by
    refine ofJson_of_children element attributes ?_
    rw [ofChildren]
    simp only [Nat.add_le_add_iff_right]
    exact ofItems_listToJson children depth

/-- Nodes are read as they were written, unless there are too few brackets for one of them. -/
theorem ofItems_listToJson : ∀ (nodes : List Node) (depth : Nat),
    ofItems depth (listToJson nodes)
      = if listBrackets nodes ≤ depth then .ok nodes else .error .malformed
  | [], depth => by
    rw [listToJson, ofItems, listBrackets, if_pos (Nat.zero_le depth)]
  | n :: rest, depth => by
    rw [listToJson, ofItems, ofJson_toJson n depth, ofItems_listToJson rest depth, listBrackets]
    simp only [Nat.max_le]
    by_cases first : n.brackets ≤ depth
    · by_cases others : listBrackets rest ≤ depth
      · rw [if_pos first, if_pos others, if_pos (And.intro first others)]
        rfl
      · rw [if_pos first, if_neg others, if_neg (not_and_of_not_right _ others)]
        rfl
    · rw [if_neg first, if_neg (not_and_of_not_left _ first)]
      rfl

end

mutual

theorem printable_toJson : ∀ n : Node, n.toJson.Printable
  | ⟨element, attributes, children⟩ => by
    have values : (attributesJson attributes).Printable := by
      refine Json.printable_record ?_
      rw [List.forall_mem_map]
      exact fun e _ => Json.printable_text e.2
    have inner : (Json.array (listToJson children)).Printable :=
      Json.printable_array (printable_listToJson children)
    rw [toJson]
    refine Json.printable_record ?_
    simp only [List.forall_mem_append, List.forall_mem_singleton]
    refine ⟨⟨Json.printable_text element, ?_⟩, ?_⟩
    · split
      · exact nofun
      · simpa using values
    · split
      · exact nofun
      · simpa using inner

theorem printable_listToJson : ∀ nodes : List Node, ∀ v ∈ listToJson nodes, v.Printable
  | [] => by
    rw [listToJson]
    exact nofun
  | n :: rest => by
    rw [listToJson, List.forall_mem_cons]
    exact ⟨printable_toJson n, printable_listToJson rest⟩

end

/-! ## Texts -/

/-- The text of a workload is read as the workload when nodes are up to 63 inside one another, and
is refused when they are more. -/
theorem listOfText_compact (nodes : List Node) : listOfText (compact nodes)
    = if listNesting nodes ≤ 63 then .ok nodes else .error .malformed := by
  have bounds := listBrackets_bounds nodes
  have room : listBrackets nodes ≤ 126 ↔ listNesting nodes ≤ 63 := by omega
  have printable := Json.printable_array (printable_listToJson nodes)
  unfold listOfText compact
  rw [Json.readText_compact printable]
  show ofChildren (126 + 1) _ = _
  rw [ofChildren]
  show ofItems 126 (listToJson nodes) = _
  rw [ofItems_listToJson]
  simp only [room]

/-- A workload with nodes up to 63 inside one another is read as it was written, and compiles from
its text as it does itself; the text of any other is refused before the settings are looked at. -/
theorem written_workload_read (config : CompilerConfig) (nodes : List Node) :
    listOfText (compact nodes)
        = (if listNesting nodes ≤ 63 then .ok nodes else .error .malformed)
      ∧ compileText config (compact nodes)
        = if listNesting nodes ≤ 63 then (compile config nodes).mapError .invalid
          else .error (.unreadable .malformed) := by
  have read := listOfText_compact nodes
  refine ⟨read, ?_⟩
  unfold compileText
  rw [read]
  split <;> rfl

end Node

end Heapscope
