import Heapscope.Proofs.Note
import Heapscope.Proofs.OrderedMap
import Heapscope.Proofs.Trace.Blocks
import Heapscope.Replay.Segment

/-!
# Segments of executed traces

Segments find the size of a released block by its address, where a run found the block by its key.
As long as a trace has good books both find the same block, because no two blocks that are held
begin at one address.

* `stages` -- the segments of a trace, by its blocks;
* `Tracks` -- the sizes by address are those of the blocks that are held;
* `segments_of_executed` -- a trace with good books has segments, and they are its stages;
* `span_of_mem_stages` -- they touch bytes of the address space only.
-/

namespace Heapscope

/-- What a call plays when it comes after the given ones. -/
def Call.stage (done : List Call) (c : Call) : Mutation :=
  match c.op with
  | .malloc .. => (c.blockAfter done).elim .idle fun b => .fill b.address b.size b.color
  | .free .. => (c.blockAfter done).elim .idle fun b => .clear b.address b.size
  | .sleep => .idle
  | .annotate note => .annotate note

/-- The segments of calls that come after the given ones. -/
def stagesFrom (done : List Call) : List Call → List Segment
  | [] => []
  | c :: rest => ⟨done.length, c.time, c.finish, c.stage done⟩ :: stagesFrom (done ++ [c]) rest

/-- The segments of a trace, by its blocks. -/
def stages (calls : List Call) : List Segment := stagesFrom [] calls

theorem stagesFrom_append (done xs ys : List Call) :
    stagesFrom done (xs ++ ys) = stagesFrom done xs ++ stagesFrom (done ++ xs) ys := by
  induction xs generalizing done with
  | nil =>
    rw [List.append_nil]
    rfl
  | cons c rest ih =>
    rw [List.cons_append, stagesFrom, stagesFrom, ih, List.append_assoc]
    rfl

theorem stages_concat (done : List Call) (c : Call) :
    stages (done ++ [c]) = stages done ++ [⟨done.length, c.time, c.finish, c.stage done⟩] := by
  unfold stages
  rw [stagesFrom_append]
  rfl

/-- A segment starts with its call. -/
theorem exists_of_mem_stagesFrom {done calls : List Call} {s : Segment}
    (member : s ∈ stagesFrom done calls) : ∃ c ∈ calls, s.start = c.time := by
  induction calls generalizing done with
  | nil => cases member
  | cons c rest ih =>
    rcases List.mem_cons.mp member with rfl | later
    · exact ⟨c, List.mem_cons_self, rfl⟩
    · obtain ⟨c', member', start⟩ := ih later
      exact ⟨c', List.mem_cons_of_mem _ member', start⟩

namespace Call

variable {c m : Call} {key : AllocationKey} {block : Block}

theorem op_of_allocation (made : c.allocation? = some (key, block)) :
    ∃ pinned, c.op = .malloc block.size pinned (some block.color) := by
  unfold allocation? at made
  split at made
  · rename_i op _ _
    cases made
    exact ⟨_, op⟩
  · cases made

theorem op_of_releases (released : c.releases m = true) : ∃ color, c.op = .free m.result color := by
  unfold releases at released
  split at released
  · rename_i color op
    rw [Bool.and_eq_true, beq_iff_eq, beq_iff_eq] at released
    exact ⟨color, released.2 ▸ op⟩
  · cases released

theorem stage_of_allocation {done : List Call} (made : c.allocation? = some (key, block)) :
    c.stage done = .fill block.address block.size block.color := by
  obtain ⟨pinned, op⟩ := op_of_allocation made
  unfold stage
  rw [op, blockAfter_of_allocation made]
  rfl

end Call

theorem Executed.stage_of_releases {capacity : UInt32} {done : List Call} {c : Call}
    {p : Call × Block} (h : Executed capacity done) (hp : p ∈ heldBlocks done)
    (released : c.releases p.1 = true) : c.stage done = .clear p.2.address p.2.size := by
  obtain ⟨color, op⟩ := Call.op_of_releases released
  unfold Call.stage
  rw [op, h.blockAfter_of_releases hp released]
  rfl

/-! ## Sizes by address -/

/-- The sizes by address are those of the blocks that are held. -/
def Tracks (live : BlockSizes) (done : List Call) : Prop :=
  ∀ a n, live.find? a = some n ↔ ∃ p ∈ heldBlocks done, p.2.address = a ∧ p.2.size = n

namespace Tracks

variable {capacity : UInt32} {done : List Call} {c : Call} {live : BlockSizes}

theorem empty : Tracks .empty [] := by
  intro a n
  constructor
  · intro found
    cases found
  · rintro ⟨p, member, -⟩
    cases member

theorem insert (tracks : Tracks live done) (executed : Executed capacity (done ++ [c]))
    {key : AllocationKey} {block : Block} (made : c.allocation? = some (key, block)) :
    Tracks (live.insert block.address block.size) (done ++ [c]) := by
  have blocks := heldBlocks_concat_malloc done made
  have new : (c, block) ∈ heldBlocks (done ++ [c]) := by
    rw [blocks]
    exact List.mem_append_right _ List.mem_cons_self
  have old : ∀ p ∈ heldBlocks done, p ∈ heldBlocks (done ++ [c]) := by
    intro p member
    rw [blocks]
    exact List.mem_append_left _ member
  intro a n
  rw [OrderedMap.find?_insert]
  by_cases same : a = block.address
  · subst same
    rw [if_pos rfl, Option.some_inj]
    constructor
    · intro size
      exact ⟨_, new, rfl, size⟩
    · rintro ⟨p, member, address, rfl⟩
      have covers := Block.covers_address (executed.heldBlocks_inside member)
      rw [address] at covers
      -- a held block at this address shares its first byte with the new one, so it is the new one
      rw [executed.eq_of_covers member new covers
        (Block.covers_address (executed.heldBlocks_inside new))]
  · rw [if_neg same, tracks a n]
    constructor
    · rintro ⟨p, member, at_p⟩
      exact ⟨p, old p member, at_p⟩
    · rintro ⟨p, member, at_p⟩
      rw [blocks] at member
      rcases List.mem_append.mp member with before | last
      · exact ⟨p, before, at_p⟩
      · rw [List.mem_singleton.mp last] at at_p
        exact absurd at_p.1.symm same

theorem erase (tracks : Tracks live done) (executed : Executed capacity done) {p : Call × Block}
    (hp : p ∈ heldBlocks done) (released : c.releases p.1 = true) :
    Tracks (live.erase p.2.address) (done ++ [c]) := by
  intro a n
  rw [OrderedMap.find?_erase]
  by_cases same : a = p.2.address
  · subst same
    rw [if_pos rfl]
    constructor
    · intro found
      cases found
    · rintro ⟨q, member, address, -⟩
      obtain ⟨hq, ne⟩ := (executed.mem_heldBlocks_concat_free hp released).mp member
      have covers := Block.covers_address (executed.heldBlocks_inside hq)
      rw [address] at covers
      -- no other block begins where the released one did
      exact absurd (executed.eq_of_covers hq hp covers
        (Block.covers_address (executed.heldBlocks_inside hp))) ne
  · rw [if_neg same, tracks a n]
    constructor
    · rintro ⟨q, hq, at_q⟩
      refine ⟨q, (executed.mem_heldBlocks_concat_free hp released).mpr ⟨hq, ?_⟩, at_q⟩
      rintro rfl
      exact same at_q.1.symm
    · rintro ⟨q, member, at_q⟩
      exact ⟨q, ((executed.mem_heldBlocks_concat_free hp released).mp member).1, at_q⟩

/-- The mutation of a call that may come next is its stage. -/
theorem mutation (tracks : Tracks live done) (executed : Executed capacity (done ++ [c]))
    (index : Nat) :
    ∃ live', c.mutation index live = .ok (c.stage done, live') ∧ Tracks live' (done ++ [c]) := by
  obtain ⟨before, follows⟩ := executed.of_concat
  cases follows with
  | @malloc e made _ _ =>
    obtain ⟨key, block⟩ := e
    obtain ⟨pinned, op⟩ := Call.op_of_allocation made
    have result := (Call.id_result_of_allocation made).2
    refine ⟨live.insert block.address block.size, ?_, tracks.insert executed made⟩
    rw [Call.stage_of_allocation made]
    unfold Call.mutation
    simp only [op, result]
    rfl
  | @free m isHeld released =>
    obtain ⟨⟨key, block⟩, made, -⟩ := before.held_inside m isHeld
    have hp : (m, block) ∈ heldBlocks done := mem_heldBlocks.mpr ⟨isHeld, key, made⟩
    obtain ⟨color, op⟩ := Call.op_of_releases released
    have result : m.result = some block.address := (Call.id_result_of_allocation made).2
    -- the trace knows the block by its key, and its address leads to the same size
    have found : live.find? block.address = some block.size :=
      (tracks _ _).mpr ⟨_, hp, rfl, rfl⟩
    refine ⟨live.erase block.address, ?_, tracks.erase before hp released⟩
    rw [before.stage_of_releases hp released]
    unfold Call.mutation
    rw [op, result]
    simp only [found]
  | other notMalloc notFree _ =>
    refine ⟨live, ?_, ?_⟩
    · cases op : c.op with
      | malloc | free => simp [Call.isMalloc, Call.isFree, op] at notMalloc notFree
      | sleep | annotate => simp [Call.mutation, Call.stage, op]
    · unfold Tracks
      rw [heldBlocks_concat_other done notMalloc notFree]
      exact tracks

end Tracks

/-! ## All segments -/

variable {capacity : UInt32}

theorem segmentsFrom_of_executed {done calls : List Call} {live : BlockSizes}
    (tracks : Tracks live done) (executed : Executed capacity (done ++ calls)) :
    segmentsFrom done.length live calls = .ok (stagesFrom done calls) := by
  induction calls generalizing done live with
  | nil => rfl
  | cons c rest ih =>
    rw [List.append_cons] at executed
    obtain ⟨live', eq, tracks'⟩ := tracks.mutation executed.of_append done.length
    have tail := ih tracks' executed
    rw [List.length_append, List.length_singleton] at tail
    unfold segmentsFrom
    rw [eq]
    simp only [bind, Except.bind]
    rw [tail]
    rfl

/-- A trace with good books has segments, and they are its stages. -/
theorem segments_of_executed {trace : Trace} (executed : Executed capacity trace.calls) :
    trace.segments = .ok (stages trace.calls) :=
  segmentsFrom_of_executed Tracks.empty executed

/-- What a call plays touches bytes of the address space only. -/
theorem span_of_stage {done : List Call} {c : Call} (executed : Executed capacity (done ++ [c]))
    {span : UInt32 × UInt32} (touches : (c.stage done).span = some span) :
    span.1.toNat + span.2.toNat ≤ capacity.toNat := by
  obtain ⟨before, follows⟩ := executed.of_concat
  cases follows with
  | @malloc e made inside _ =>
    obtain ⟨key, block⟩ := e
    rw [Call.stage_of_allocation made] at touches
    cases touches
    exact inside.2
  | @free m isHeld released =>
    obtain ⟨⟨key, block⟩, made, inside⟩ := before.held_inside m isHeld
    rw [before.stage_of_releases (mem_heldBlocks.mpr ⟨isHeld, key, made⟩) released] at touches
    cases touches
    exact inside.2
  | other notMalloc notFree valid =>
    unfold Call.stage at touches
    cases op : c.op with
    | malloc | free => simp [Call.isMalloc, Call.isFree, op] at notMalloc notFree
    | sleep =>
      rw [op] at touches
      cases touches
    | annotate note =>
      rw [op] at touches
      cases touches
      exact (Note.validate_ok_iff.mp (valid note op)).2.2

/-- The segments of a trace with good books touch bytes of the address space only. -/
theorem span_of_mem_stages {calls : List Call} (executed : Executed capacity calls) {s : Segment}
    (member : s ∈ stages calls) {span : UInt32 × UInt32} (touches : s.mutation.span = some span) :
    span.1.toNat + span.2.toNat ≤ capacity.toNat := by
  induction executed with
  | nil => cases member
  | @concat done c before follows ih =>
    rw [stages_concat] at member
    rcases List.mem_append.mp member with earlier | last
    · exact ih earlier
    · rw [List.mem_singleton.mp last] at touches
      exact span_of_stage (before.concat follows) touches

end Heapscope
