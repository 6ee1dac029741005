import Heapscope.Proofs.Trace.Ledger
import Mathlib.Data.List.Pairwise

/-!
# The blocks of a trace

In a trace with good books each allocation has a block, and so has each release: that of the
allocation which it releases.

* `heldBlocks` -- the allocations that are held, each with its block;
* `touched` -- the calls that allocate or release, each with its block;
* `Executed.heldBlocks_disjoint` -- no byte is held twice;
* `heldBlocks_concat_malloc`, `Executed.mem_heldBlocks_concat_free` -- what one more call changes.
-/

namespace Heapscope

/-- The allocations that are held, each with its block. -/
def heldBlocks (calls : List Call) : List (Call × Block) :=
  (held calls).filterMap fun m => m.allocation?.map fun e => (m, e.2)

/-- The block that a call allocates, or that it releases when it comes after the given ones. -/
def Call.blockAfter (done : List Call) (c : Call) : Option Block :=
  (c.allocation?.map Prod.snd).or
    (((heldBlocks done).find? fun p => c.releases p.1).map Prod.snd)

/-- The calls that allocate or release, each with its block, when the given ones come before. -/
def touchedFrom (done : List Call) : List Call → List (Call × Block)
  | [] => []
  | c :: rest =>
    ((c.blockAfter done).map fun block => (c, block)).toList ++ touchedFrom (done ++ [c]) rest

/-- The calls of a trace that allocate or release, each with its block. -/
def touched (calls : List Call) : List (Call × Block) := touchedFrom [] calls

/-! ## One more call -/

theorem mem_heldBlocks {calls : List Call} {m : Call} {block : Block} :
    (m, block) ∈ heldBlocks calls ↔ m ∈ held calls ∧ ∃ key, m.allocation? = some (key, block) := by
  unfold heldBlocks
  rw [List.mem_filterMap]
  constructor
  · rintro ⟨m', isHeld, eq⟩
    obtain ⟨⟨key, block'⟩, made, same⟩ := Option.map_eq_some_iff.mp eq
    cases same
    exact ⟨isHeld, key, made⟩
  · rintro ⟨isHeld, key, made⟩
    exact ⟨m, isHeld, by rw [made, Option.map_some]⟩

theorem heldBlocks_concat_malloc {c : Call} {key : AllocationKey} {block : Block}
    (done : List Call) (made : c.allocation? = some (key, block)) :
    heldBlocks (done ++ [c]) = heldBlocks done ++ [(c, block)] := by
  unfold heldBlocks
  rw [held_concat_malloc done (Call.isMalloc_of_allocation made), List.filterMap_append,
    List.filterMap_cons, made]
  rfl

theorem heldBlocks_concat_free {c : Call} (done : List Call) (isFree : c.isFree = true) :
    heldBlocks (done ++ [c]) = (heldBlocks done).filter fun p => !c.releases p.1 := by
  unfold heldBlocks
  rw [held_concat done (Call.isMalloc_eq_false isFree), List.filterMap_filter,
    List.filter_filterMap]
  refine List.filterMap_congr fun m _ => ?_
  cases m.allocation? with
  | none => simp
  | some e => cases released : c.releases m <;> simp [released, Option.filter]

theorem heldBlocks_concat_other {c : Call} (done : List Call) (notMalloc : c.isMalloc = false)
    (notFree : c.isFree = false) : heldBlocks (done ++ [c]) = heldBlocks done := by
  unfold heldBlocks
  rw [held_concat_other done notMalloc notFree]

theorem touchedFrom_append (done xs ys : List Call) :
    touchedFrom done (xs ++ ys) = touchedFrom done xs ++ touchedFrom (done ++ xs) ys := by
  induction xs generalizing done with
  | nil =>
    rw [List.append_nil]
    rfl
  | cons c rest ih =>
    rw [List.cons_append, touchedFrom, touchedFrom, ih, List.append_assoc, List.append_assoc]
    rfl

theorem touched_concat (done : List Call) (c : Call) :
    touched (done ++ [c])
      = touched done ++ ((c.blockAfter done).map fun block => (c, block)).toList := by
  unfold touched
  rw [touchedFrom_append, touchedFrom, touchedFrom, List.append_nil]
  rfl

theorem mem_of_mem_touchedFrom {done calls : List Call} {p : Call × Block}
    (member : p ∈ touchedFrom done calls) : p.1 ∈ calls := by
  induction calls generalizing done with
  | nil => cases member
  | cons c rest ih =>
    rw [touchedFrom] at member
    rcases List.mem_append.mp member with first | later
    · obtain ⟨block, -, rfl⟩ := Option.map_eq_some_iff.mp (Option.mem_toList.mp first)
      exact List.mem_cons_self
    · exact List.mem_cons_of_mem _ (ih later)

/-! ## The block of a call -/

namespace Call

variable {c : Call} {done : List Call}

theorem blockAfter_of_allocation {key : AllocationKey} {block : Block}
    (made : c.allocation? = some (key, block)) : c.blockAfter done = some block := by
  unfold blockAfter
  rw [made]
  rfl

theorem allocation_eq_none (notMalloc : c.isMalloc = false) : c.allocation? = none := by
  cases made : c.allocation? with
  | none => rfl
  | some e =>
    rw [isMalloc_of_allocation made] at notMalloc
    cases notMalloc

theorem blockAfter_of_other (notMalloc : c.isMalloc = false) (notFree : c.isFree = false) :
    c.blockAfter done = none := by
  unfold blockAfter
  rw [allocation_eq_none notMalloc]
  simp [releases_eq_false notFree]

end Call

/-! ## Traces with good books -/

namespace Executed

variable {capacity : UInt32} {done : List Call}

theorem heldBlocks_inside (h : Executed capacity done) {p : Call × Block}
    (member : p ∈ heldBlocks done) : p.2.Inside capacity := by
  obtain ⟨isHeld, key, made⟩ := mem_heldBlocks.mp member
  obtain ⟨e, made', inside⟩ := h.held_inside p.1 isHeld
  rw [made] at made'
  cases made'
  exact inside

/-- No byte is held twice. -/
theorem heldBlocks_disjoint (h : Executed capacity done) :
    (heldBlocks done).Pairwise fun p q => p.2.Disjoint q.2 := by
  unfold heldBlocks
  rw [List.pairwise_filterMap]
  refine h.separate.imp ?_
  intro m n apart p hp q hq
  obtain ⟨d, made_m, rfl⟩ := Option.map_eq_some_iff.mp hp
  obtain ⟨e, made_n, rfl⟩ := Option.map_eq_some_iff.mp hq
  exact (apart d made_m e made_n).2

theorem disjoint_of_ne (h : Executed capacity done) {p q : Call × Block}
    (hp : p ∈ heldBlocks done) (hq : q ∈ heldBlocks done) (ne : p ≠ q) : p.2.Disjoint q.2 := by
  have symm : Std.Symm fun p q : Call × Block => p.2.Disjoint q.2 :=
    ⟨fun _ _ => Block.Disjoint.symm⟩
  exact h.heldBlocks_disjoint.forall hp hq ne

/-- A byte lies in one held block at most. -/
theorem eq_of_covers (h : Executed capacity done) {p q : Call × Block} {b : Nat}
    (hp : p ∈ heldBlocks done) (hq : q ∈ heldBlocks done) (covers_p : p.2.Covers b)
    (covers_q : q.2.Covers b) : p = q := by
  by_contra ne
  exact h.disjoint_of_ne hp hq ne b ⟨covers_p, covers_q⟩

/-- A call releases one held allocation at most: what it releases has its address. -/
theorem releases_iff_eq (h : Executed capacity done) {c : Call} {p q : Call × Block}
    (hp : p ∈ heldBlocks done) (released : c.releases p.1 = true) (hq : q ∈ heldBlocks done) :
    c.releases q.1 = true ↔ q = p := by
  constructor
  · intro released'
    obtain ⟨-, key, made⟩ := mem_heldBlocks.mp hp
    obtain ⟨-, key', made'⟩ := mem_heldBlocks.mp hq
    cases op : c.op with
    | malloc | sleep | annotate => simp [Call.releases, op] at released
    | free address color =>
      have at_p := ((Call.releases_iff op made).mp released).2
      have at_q := ((Call.releases_iff op made').mp released').2
      have same : q.2.address = p.2.address := Option.some.inj (at_q.symm.trans at_p)
      -- both blocks begin at the address that is released, so they share their first byte
      refine h.eq_of_covers hq hp (Block.covers_address (h.heldBlocks_inside hq)) ?_
      rw [same]
      exact Block.covers_address (h.heldBlocks_inside hp)
  · rintro rfl
    exact released

theorem blockAfter_of_releases (h : Executed capacity done) {c : Call} {p : Call × Block}
    (hp : p ∈ heldBlocks done) (released : c.releases p.1 = true) :
    c.blockAfter done = some p.2 := by
  have isFree := Call.isFree_of_releases released
  have isSome : ((heldBlocks done).find? fun q => c.releases q.1).isSome :=
    List.find?_isSome.mpr ⟨p, hp, released⟩
  obtain ⟨q, found⟩ := Option.isSome_iff_exists.mp isSome
  have releases_q : c.releases q.1 = true := by
    have holds := List.find?_some found
    exact holds
  have same := (h.releases_iff_eq hp released (List.mem_of_find?_eq_some found)).mp releases_q
  unfold Call.blockAfter
  rw [Call.allocation_eq_none (Call.isMalloc_eq_false isFree), found, same]
  rfl

/-- A release takes away its allocation and no other. -/
theorem mem_heldBlocks_concat_free (h : Executed capacity done) {c : Call} {p q : Call × Block}
    (hp : p ∈ heldBlocks done) (released : c.releases p.1 = true) :
    q ∈ heldBlocks (done ++ [c]) ↔ q ∈ heldBlocks done ∧ q ≠ p := by
  rw [heldBlocks_concat_free done (Call.isFree_of_releases released), List.mem_filter]
  refine and_congr_right fun hq => ?_
  rw [Bool.not_eq_true', ← Bool.not_eq_true, h.releases_iff_eq hp released hq]

end Executed

end Heapscope
