import Heapscope.Proofs.Except
import Heapscope.Proofs.Workload.Weaving

/-!
# Threads of a workload

The threads of a workload are its thread elements in preorder, behind the top level if that holds an
operation.  Checking a workload keeps its shape: the threads of the items have the operations of the
threads of the nodes.

* `threadBodies` -- the bodies of all threads, each at the place of its number;
* `Node.operation?` -- the operation that a node stands for;
* `Item.Checks` -- nodes and items have the same threads with the same operations, and every
  operation stands in the body of one thread;
* `Item.checks_of_ofNodes_ok` -- so it is when a workload passes its check.
-/

namespace Heapscope

namespace Node

mutual

/-- A node and all nodes below it, in preorder. -/
def preorder : Node → List Node
  | n@⟨_, _, children⟩ => n :: preorderAll children

/-- Nodes and all nodes below them, in preorder. -/
def preorderAll : List Node → List Node
  | [] => []
  | n :: rest => preorder n ++ preorderAll rest

end

def isThread (n : Node) : Bool := n.element == Element.thread.name

/-- The operation that a node stands for. -/
def operation? (n : Node) : Option Step :=
  match n.check with
  | .ok (.step s) => some s
  | _ => none

/-- The bodies of the thread elements among some nodes. -/
def bodies (nodes : List Node) : List (List Node) := (nodes.filter isThread).map children

/-- What a node that passes its check is. -/
theorem check_ok {n : Node} {found : Checked} (ok : n.check = .ok found) :
    (found = .thread ∧ n.isThread = true) ∨
    (∃ s, found = .step s ∧ n.isThread = false ∧ n.children = []) := by
  unfold check at ok
  cases named : Element.ofName? n.element with
  | none =>
    rw [named] at ok
    cases ok
  | some element =>
    rw [named] at ok
    -- the check looks the element up by its name, so the name tells a thread
    have name : n.element = element.name := by
      have same := List.find?_some named
      exact (eq_of_beq same).symm
    obtain ⟨-, -, ok⟩ := exists_of_bind_ok ok
    simp only at ok
    split at ok
    · cases ok
    · rename_i allowed
      obtain ⟨duration, -, ok⟩ := exists_of_bind_ok ok
      cases element with
      | thread =>
        cases ok
        exact .inl ⟨rfl, by rw [isThread, name]; rfl⟩
      | malloc | free | sleep | annotate =>
        obtain ⟨argument, -, ok⟩ := exists_of_bind_ok ok
        cases ok
        exact .inr ⟨_, rfl, by rw [isThread, name]; rfl, by simpa using allowed⟩

theorem preorder_eq (n : Node) : n.preorder = n :: preorderAll n.children := by
  cases n
  rw [preorder]

end Node

/-- The bodies of the threads of a workload, each at the place of its number: the top level comes
first when it holds anything but threads. -/
def threadBodies (nodes : List Node) : List (List Node) :=
  if nodes.all Node.isThread then Node.bodies (Node.preorderAll nodes)
  else nodes :: Node.bodies (Node.preorderAll nodes)

/-! ## Checked workloads -/

namespace Item

/-- An item comes from a node that is an operation without children, or from a thread element and
the items of its children. -/
theorem ofNode_ok {n : Node} {item : Item} (ok : ofNode n = .ok item) :
    (∃ s, n.operation? = some s ∧ n.isThread = false ∧ n.children = [] ∧ item = .step s) ∨
    (∃ body, n.operation? = none ∧ n.isThread = true ∧ ofNodes n.children = .ok body ∧
      item = .thread body) := by
  obtain ⟨element, attributes, children⟩ := n
  rw [ofNode] at ok
  obtain ⟨found, passed, ok⟩ := exists_of_bind_ok ok
  rcases Node.check_ok passed with ⟨rfl, isThread⟩ | ⟨s, rfl, notThread, childless⟩
  · obtain ⟨body, inner, ok⟩ := exists_of_bind_ok ok
    cases ok
    exact .inr ⟨body, by rw [Node.operation?, passed], isThread, inner, rfl⟩
  · cases ok
    exact .inl ⟨s, by rw [Node.operation?, passed], notThread, childless, rfl⟩

theorem ofNodes_cons_ok {n : Node} {rest : List Node} {items : List Item}
    (ok : ofNodes (n :: rest) = .ok items) :
    ∃ item more, ofNode n = .ok item ∧ ofNodes rest = .ok more ∧ items = item :: more := by
  rw [ofNodes] at ok
  obtain ⟨item, first, ok⟩ := exists_of_bind_ok ok
  obtain ⟨more, others, ok⟩ := exists_of_bind_ok ok
  cases ok
  exact ⟨item, more, first, others, rfl⟩

/-- Checking keeps the shape of a workload. -/
structure Checks (nodes : List Node) (items : List Item) : Prop where
  steps_eq : items.filterMap step? = nodes.filterMap Node.operation?
  all_eq : items.all isThread = nodes.all Node.isThread
  threads_eq : threadsAll items
    = (Node.bodies (Node.preorderAll nodes)).map fun body => body.filterMap Node.operation?
  sorts : ∀ n ∈ Node.preorderAll nodes, n.operation?.isSome = !n.isThread
  perm : (nodes.filterMap Node.operation?
      ++ (Node.bodies (Node.preorderAll nodes)).flatten.filterMap Node.operation?).Perm
    ((Node.preorderAll nodes).filterMap Node.operation?)

namespace Checks

variable {n : Node} {rest : List Node} {more body : List Item}

theorem nil : Checks [] [] where
  steps_eq := rfl
  all_eq := rfl
  threads_eq := rfl
  sorts := fun _ member => absurd member List.not_mem_nil
  perm := .nil

/-- An operation has no nodes below it. -/
theorem step {s : Step} (operation : n.operation? = some s) (notThread : n.isThread = false)
    (childless : n.children = []) (others : Checks rest more) :
    Checks (n :: rest) (.step s :: more) := by
  have preorder : Node.preorderAll (n :: rest) = n :: Node.preorderAll rest := by
    rw [Node.preorderAll, Node.preorder_eq, childless, Node.preorderAll]
    rfl
  have bodies : Node.bodies (n :: Node.preorderAll rest)
      = Node.bodies (Node.preorderAll rest) := by
    unfold Node.bodies
    rw [List.filter_cons_of_neg (by simp [notThread])]
  constructor
  · rw [filterMap_step_cons, List.filterMap_cons_some operation, ← others.steps_eq]
    rfl
  · rw [List.all_cons, List.all_cons, notThread]
    rfl
  · rw [preorder, bodies, ← others.threads_eq, threadsAll, threads]
    rfl
  · rw [preorder]
    refine List.forall_mem_cons.mpr ⟨?_, others.sorts⟩
    rw [operation, notThread]
    rfl
  · rw [preorder, bodies, List.filterMap_cons_some operation, List.filterMap_cons_some operation]
    exact others.perm.cons s

/-- The nodes below a thread element come before those behind it. -/
theorem thread (operation : n.operation? = none) (isThread : n.isThread = true)
    (inner : Checks n.children body) (others : Checks rest more) :
    Checks (n :: rest) (.thread body :: more) := by
  have preorder : Node.preorderAll (n :: rest)
      = n :: (Node.preorderAll n.children ++ Node.preorderAll rest) := by
    rw [Node.preorderAll, Node.preorder_eq]
    rfl
  have bodies : Node.bodies (Node.preorderAll (n :: rest))
      = n.children :: (Node.bodies (Node.preorderAll n.children)
        ++ Node.bodies (Node.preorderAll rest)) := by
    unfold Node.bodies
    rw [preorder, List.filter_cons_of_pos isThread, List.filter_append, List.map_cons,
      List.map_append]
  constructor
  · rw [filterMap_step_cons, List.filterMap_cons_none operation, ← others.steps_eq]
    rfl
  · rw [List.all_cons, List.all_cons, isThread, others.all_eq]
    rfl
  · rw [bodies, List.map_cons, List.map_append, ← inner.threads_eq, ← others.threads_eq,
      ← inner.steps_eq, threadsAll, threads]
    rfl
  · rw [preorder]
    refine List.forall_mem_cons.mpr ⟨?_, ?_⟩
    · rw [operation, isThread]
      rfl
    · intro m member
      rcases List.mem_append.mp member with below | behind
      · exact inner.sorts m below
      · exact others.sorts m behind
  · rw [bodies, preorder, List.filterMap_cons_none operation, List.filterMap_cons_none operation,
      List.filterMap_append, List.flatten_cons, List.flatten_append, List.filterMap_append,
      List.filterMap_append]
    refine .trans ?_ (inner.perm.append others.perm)
    -- the operations behind the thread element move past those below it
    rw [← List.append_assoc, ← List.append_assoc, ← List.append_assoc]
    refine List.Perm.append_right _ ?_
    rw [List.append_assoc]
    exact List.perm_append_comm

end Checks

/-- A workload that is checked has the same threads with the same operations. -/
theorem checks_of_ofNodes_ok : ∀ {nodes : List Node} {items : List Item},
    ofNodes nodes = .ok items → Checks nodes items
  | [], items, ok => by
    rw [ofNodes] at ok
    cases ok
    exact .nil
  | ⟨element, attributes, children⟩ :: rest, items, ok => by
    obtain ⟨item, more, first, others, rfl⟩ := ofNodes_cons_ok ok
    have behind := checks_of_ofNodes_ok others
    rcases ofNode_ok first with
      ⟨s, operation, notThread, childless, rfl⟩ | ⟨body, operation, isThread, inner, rfl⟩
    · exact .step operation notThread childless behind
    · exact .thread operation isThread (checks_of_ofNodes_ok inner) behind

end Item

end Heapscope
