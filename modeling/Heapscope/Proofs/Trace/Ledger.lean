import Heapscope.Run.Execution
import Mathlib.Data.List.Nodup

/-!
# The ledger of a trace

A trace tells by itself which blocks are in use after it: those of the allocations that no later
call releases.  A trace that was executed keeps good books: an allocation takes a block that shares
no key and no byte with the blocks in use, and a release names the key and the address of one of
them.

* `held` -- the allocations that no later call releases;
* `Executed` -- the traces with good books, by their last call, which `Follows` the others;
* `Executed.separate` -- blocks in use have different keys and no byte in common.
-/

namespace Heapscope

/-! ## Blocks as spans of bytes -/

namespace Block

/-- A byte lies in a block. -/
def Covers (block : Block) (b : Nat) : Prop :=
  block.address.toNat ≤ b ∧ b < block.address.toNat + block.size.toNat

instance (block : Block) (b : Nat) : Decidable (block.Covers b) :=
  inferInstanceAs (Decidable (_ ∧ _))

/-- Two blocks have no byte in common. -/
def Disjoint (a b : Block) : Prop := ∀ byte, ¬(a.Covers byte ∧ b.Covers byte)

theorem Disjoint.symm {a b : Block} (h : a.Disjoint b) : b.Disjoint a :=
  fun byte both => h byte ⟨both.2, both.1⟩

/-- A block that has bytes and lies in an address space. -/
def Inside (block : Block) (capacity : UInt32) : Prop :=
  0 < block.size.toNat ∧ block.address.toNat + block.size.toNat ≤ capacity.toNat

/-- The last byte of a block. -/
def last (block : Block) : Nat := block.address.toNat + block.size.toNat - 1

theorem covers_address {block : Block} {capacity : UInt32} (h : block.Inside capacity) :
    block.Covers block.address.toNat :=
  ⟨Nat.le_refl _, Nat.lt_add_of_pos_right h.1⟩

end Block

/-! ## Allocations and releases -/

namespace Call

/-- The key and the block of an allocation that has been made. -/
def allocation? (c : Call) : Option (AllocationKey × Block) :=
  match c.op, c.id, c.result with
  | .malloc size pinned (some color), some key, some address =>
    some (key, ⟨address, size, color, pinned.isSome⟩)
  | _, _, _ => none

def isMalloc (c : Call) : Bool :=
  match c.op with
  | .malloc .. => true
  | _ => false

def isFree (c : Call) : Bool :=
  match c.op with
  | .free .. => true
  | _ => false

/-- Whether a call releases what another one allocated: it names the same key and address. -/
def releases (c m : Call) : Bool :=
  match c.op with
  | .free address _ => c.id == m.id && address == m.result
  | _ => false

theorem isMalloc_of_allocation {c : Call} {e : AllocationKey × Block}
    (h : c.allocation? = some e) : c.isMalloc = true := by
  unfold allocation? at h
  unfold isMalloc
  split at h
  · rename_i op _ _
    rw [op]
  · cases h

/-- The key and the address of an allocation are those of its block. -/
theorem id_result_of_allocation {c : Call} {e : AllocationKey × Block}
    (h : c.allocation? = some e) : c.id = some e.1 ∧ c.result = some e.2.address := by
  unfold allocation? at h
  split at h
  · rename_i id result
    cases h
    exact ⟨id, result⟩
  · cases h

theorem releases_eq_false {c m : Call} (h : c.isFree = false) : c.releases m = false := by
  unfold isFree at h
  unfold releases
  split
  · rename_i op
    rw [op] at h
    cases h
  · rfl

theorem isFree_eq_false {c : Call} (h : c.isMalloc = true) : c.isFree = false := by
  unfold isMalloc at h
  unfold isFree
  split at h
  · rename_i op
    rw [op]
  · cases h

theorem isMalloc_eq_false {c : Call} (h : c.isFree = true) : c.isMalloc = false := by
  cases hm : c.isMalloc with
  | false => rfl
  | true =>
    rw [isFree_eq_false hm] at h
    cases h

theorem isFree_of_releases {c m : Call} (h : c.releases m = true) : c.isFree = true := by
  cases hf : c.isFree with
  | true => rfl
  | false =>
    rw [releases_eq_false hf] at h
    cases h

/-- A call releases an allocation exactly when it is a release with its key and its address. -/
theorem releases_iff {c m : Call} {e : AllocationKey × Block} {address : Option UInt32}
    {color : Option Color} (op : c.op = .free address color) (h : m.allocation? = some e) :
    c.releases m = true ↔ c.id = some e.1 ∧ address = some e.2.address := by
  obtain ⟨id, result⟩ := id_result_of_allocation h
  unfold releases
  rw [op]
  simp only [id, result, Bool.and_eq_true, beq_iff_eq]

end Call

/-! ## What is held -/

/-- The allocations among some calls that no later one of them releases, in order. -/
def held : List Call → List Call
  | [] => []
  | c :: rest => if c.isMalloc && !rest.any (·.releases c) then c :: held rest else held rest

theorem held_append (xs ys : List Call) :
    held (xs ++ ys) = (held xs).filter (fun m => !ys.any (·.releases m)) ++ held ys := by
  induction xs with
  | nil => rfl
  | cons c rest ih =>
    rw [List.cons_append, held, held, ih, List.any_append]
    cases c.isMalloc with
    | false => simp
    | true => cases rest.any (·.releases c) <;> cases h : ys.any (·.releases c) <;> simp [h]

/-- An allocation is held at once. -/
theorem held_concat_malloc {c : Call} (done : List Call) (h : c.isMalloc = true) :
    held (done ++ [c]) = held done ++ [c] := by
  rw [held_append]
  simp [held, h, Call.releases_eq_false (Call.isFree_eq_false h)]

/-- A release takes away the allocations that it releases. -/
theorem held_concat {c : Call} (done : List Call) (h : c.isMalloc = false) :
    held (done ++ [c]) = (held done).filter fun m => !c.releases m := by
  rw [held_append]
  simp [held, h]

/-- All other calls leave what is held. -/
theorem held_concat_other {c : Call} (done : List Call) (hm : c.isMalloc = false)
    (hf : c.isFree = false) : held (done ++ [c]) = held done := by
  rw [held_concat done hm]
  simp [Call.releases_eq_false hf]

theorem mem_of_mem_held {calls : List Call} {m : Call} (h : m ∈ held calls) : m ∈ calls := by
  induction calls with
  | nil => exact h
  | cons c rest ih =>
    rw [held] at h
    split at h
    · rcases List.mem_cons.mp h with rfl | h
      · exact List.mem_cons_self
      · exact List.mem_cons_of_mem _ (ih h)
    · exact List.mem_cons_of_mem _ (ih h)

/-! ## Good books -/

/-- Two allocations have different keys, and their blocks no byte in common. -/
def Separate (m n : Call) : Prop :=
  ∀ d ∈ m.allocation?, ∀ e ∈ n.allocation?, d.1 ≠ e.1 ∧ d.2.Disjoint e.2

/-- The calls that may come after others: an allocation of a new key and free bytes, a release of an
allocation that is held, and calls that do neither. -/
inductive Follows (capacity : UInt32) (done : List Call) (c : Call) : Prop
  | malloc {e : AllocationKey × Block} (made : c.allocation? = some e)
      (inside : e.2.Inside capacity) (apart : ∀ m ∈ held done, Separate m c)
  | free {m : Call} (isHeld : m ∈ held done) (released : c.releases m = true)
  | other (notMalloc : c.isMalloc = false) (notFree : c.isFree = false)
      (valid : ∀ note, c.op = .annotate note → note.validate capacity = .ok ())

/-- The traces that keep good books in an address space. -/
inductive Executed (capacity : UInt32) : List Call → Prop
  | nil : Executed capacity []
  | concat {done : List Call} {c : Call} (before : Executed capacity done)
      (follows : Follows capacity done c) : Executed capacity (done ++ [c])

namespace Executed

variable {capacity : UInt32} {done : List Call} {c : Call}

theorem of_concat (h : Executed capacity (done ++ [c])) :
    Executed capacity done ∧ Follows capacity done c := by
  -- a variable stands for the trace, so that the cases on how it was executed apply
  generalize eq : done ++ [c] = calls at h
  cases h with
  | nil => simp at eq
  | concat before follows =>
    obtain ⟨rfl, last⟩ := List.append_inj' eq rfl
    cases last
    exact ⟨before, follows⟩

/-- The first calls of a trace with good books have good books. -/
theorem of_append {more : List Call} (h : Executed capacity (done ++ more)) :
    Executed capacity done := by
  induction more generalizing done with
  | nil =>
    rw [List.append_nil] at h
    exact h
  | cons c rest ih =>
    rw [List.append_cons] at h
    exact (ih h).of_concat.1

/-- Every annotation is valid. -/
theorem note_valid (h : Executed capacity done) :
    ∀ c ∈ done, ∀ note, c.op = .annotate note → note.validate capacity = .ok () := by
  induction h with
  | nil =>
    intro c member
    cases member
  | @concat done last _ follows ih =>
    intro c member note op
    rcases List.mem_append.mp member with before | new
    · exact ih c before note op
    · rw [List.mem_singleton.mp new] at op
      cases follows with
      | malloc made _ _ =>
        have isMalloc := Call.isMalloc_of_allocation made
        rw [Call.isMalloc, op] at isMalloc
        cases isMalloc
      | free _ released =>
        have isFree := Call.isFree_of_releases released
        rw [Call.isFree, op] at isFree
        cases isFree
      | other _ _ valid => exact valid note op

/-- Every allocation that is held has a block in the address space. -/
theorem held_inside (h : Executed capacity done) :
    ∀ m ∈ held done, ∃ e, m.allocation? = some e ∧ e.2.Inside capacity := by
  induction h with
  | nil =>
    intro m member
    cases member
  | @concat done c _ follows ih =>
    intro m member
    -- only an allocation adds a block, and it was checked against the address space
    cases follows with
    | @malloc e made inside _ =>
      rw [held_concat_malloc done (Call.isMalloc_of_allocation made)] at member
      rcases List.mem_append.mp member with before | new
      · exact ih m before
      · rw [List.mem_singleton.mp new]
        exact ⟨e, made, inside⟩
    | free _ released =>
      rw [held_concat _ (Call.isMalloc_eq_false (Call.isFree_of_releases released))] at member
      exact ih m (List.mem_of_mem_filter member)
    | other notMalloc notFree _ =>
      rw [held_concat_other _ notMalloc notFree] at member
      exact ih m member

/-- Blocks that are held have different keys and no byte in common. -/
theorem separate (h : Executed capacity done) : (held done).Pairwise Separate := by
  induction h with
  | nil => exact .nil
  | @concat done c _ follows ih =>
    cases follows with
    | malloc made _ apart =>
      rw [held_concat_malloc done (Call.isMalloc_of_allocation made), List.pairwise_append]
      refine ⟨ih, List.pairwise_singleton _ _, ?_⟩
      intro m hm n hn
      rw [List.mem_singleton.mp hn]
      exact apart m hm
    | free _ released =>
      rw [held_concat _ (Call.isMalloc_eq_false (Call.isFree_of_releases released))]
      exact ih.filter _
    | other notMalloc notFree _ =>
      rw [held_concat_other _ notMalloc notFree]
      exact ih

end Executed

end Heapscope
