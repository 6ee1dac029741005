import Heapscope.Proofs.Replay.Playing
import Heapscope.Proofs.Replay.Stages

/-!
# What a picture shows

The picture at a time shows memory after the calls that have started, as the trace tells it: a byte
of a block that is held has its color and fades in with the allocation; a byte that a release has
left keeps the color and fades out with the release; all others are blank.

* `shownCell` -- the cell of a byte by the trace alone;
* `cells_of_executed` -- playing a trace with good books shows it, by induction on its last call;
* `cells_of_segments` -- so does the picture of a sorted trace at every time.
-/

namespace Heapscope

/-- The allocation that is held over a byte, with its block. -/
def heldOver (calls : List Call) (b : Nat) : Option (Call × Block) :=
  (heldBlocks calls).find? fun p => p.2.Covers b

/-- The last call whose block covers a byte, with this block. -/
def lastOver (calls : List Call) (b : Nat) : Option (Call × Block) :=
  ((touched calls).filter fun p => p.2.Covers b).getLast?

/-- The cell of a byte at a time when exactly the given calls have started. -/
def shownCell (calls : List Call) (t : Micros) (b : Nat) : Cell :=
  match heldOver calls b with
  | some (m, block) => ⟨some block.color, m.played t⟩
  | none =>
    match lastOver calls b with
    | some (c, block) =>
      if c.isFree ∧ (c.played t).lt .one then ⟨some block.color, .one - c.played t⟩ else {}
    | none => {}

/-- The calls of a sorted list that have started at a time. -/
def startedBy (calls : List Call) (t : Micros) : List Call :=
  calls.take (calls.countP fun c => c.time ≤ t)

variable {capacity : UInt32} {done : List Call} {c : Call} {b : Nat} {t : Micros}

/-! ## One more call -/

theorem heldOver_eq_none_iff {calls : List Call} :
    heldOver calls b = none ↔ ∀ p ∈ heldBlocks calls, ¬p.2.Covers b := by
  unfold heldOver
  simp

/-- A byte lies in one held block at most, so the first one found is the one. -/
theorem heldOver_eq_some_iff {calls : List Call} (executed : Executed capacity calls)
    {p : Call × Block} : heldOver calls b = some p ↔ p ∈ heldBlocks calls ∧ p.2.Covers b := by
  unfold heldOver
  constructor
  · intro found
    have covers := List.find?_some found
    exact ⟨List.mem_of_find?_eq_some found, of_decide_eq_true covers⟩
  · rintro ⟨member, covers⟩
    have isSome : ((heldBlocks calls).find? fun p => decide (p.2.Covers b)).isSome :=
      List.find?_isSome.mpr ⟨p, member, decide_eq_true covers⟩
    obtain ⟨q, found⟩ := Option.isSome_iff_exists.mp isSome
    have covers_q := List.find?_some found
    rw [found, executed.eq_of_covers (List.mem_of_find?_eq_some found) member
      (of_decide_eq_true covers_q) covers]

theorem lastOver_concat_of_covers {block : Block} (after : c.blockAfter done = some block)
    (covers : block.Covers b) : lastOver (done ++ [c]) b = some (c, block) := by
  unfold lastOver
  rw [touched_concat, after]
  simp [covers]

theorem lastOver_concat_of_not_covers (outside : ∀ block ∈ c.blockAfter done, ¬block.Covers b) :
    lastOver (done ++ [c]) b = lastOver done b := by
  unfold lastOver
  rw [touched_concat]
  cases after : c.blockAfter done with
  | none => simp
  | some block => simp [outside block after]

/-- A call changes the held blocks over bytes of its own block only. -/
theorem heldOver_concat_of_not_covers (executed : Executed capacity (done ++ [c]))
    (outside : ∀ block ∈ c.blockAfter done, ¬block.Covers b) :
    heldOver (done ++ [c]) b = heldOver done b := by
  obtain ⟨before, follows⟩ := executed.of_concat
  apply Option.ext
  intro p
  rw [heldOver_eq_some_iff executed, heldOver_eq_some_iff before]
  refine and_congr_left fun covers => ?_
  -- over a byte outside its block a call neither adds a held block nor takes one away
  cases follows with
  | @malloc e made _ _ =>
    obtain ⟨key, block⟩ := e
    rw [heldBlocks_concat_malloc done made, List.mem_append, List.mem_singleton, or_iff_left]
    rintro rfl
    exact outside block (Call.blockAfter_of_allocation made) covers
  | @free m isHeld released =>
    obtain ⟨⟨key, block⟩, made, -⟩ := before.held_inside m isHeld
    have hp : (m, block) ∈ heldBlocks done := mem_heldBlocks.mpr ⟨isHeld, key, made⟩
    rw [before.mem_heldBlocks_concat_free hp released, and_iff_left]
    rintro rfl
    exact outside block (before.blockAfter_of_releases hp released) covers
  | other notMalloc notFree _ => rw [heldBlocks_concat_other done notMalloc notFree]

theorem shownCell_concat_of_not_covers (executed : Executed capacity (done ++ [c]))
    (outside : ∀ block ∈ c.blockAfter done, ¬block.Covers b) :
    shownCell (done ++ [c]) t b = shownCell done t b := by
  unfold shownCell
  rw [heldOver_concat_of_not_covers executed outside, lastOver_concat_of_not_covers outside]

theorem shownCell_of_held {calls : List Call} (executed : Executed capacity calls)
    {p : Call × Block} (member : p ∈ heldBlocks calls) (covers : p.2.Covers b) :
    shownCell calls t b = ⟨some p.2.color, p.1.played t⟩ := by
  unfold shownCell
  rw [(heldOver_eq_some_iff executed).mpr ⟨member, covers⟩]

/-- A byte that has just been released fades out as far as the release has played. -/
theorem shownCell_concat_free (executed : Executed capacity (done ++ [c])) {p : Call × Block}
    (hp : p ∈ heldBlocks done) (released : c.releases p.1 = true) (covers : p.2.Covers b) :
    shownCell (done ++ [c]) t b
      = if (c.played t).lt .one then ⟨some p.2.color, .one - c.played t⟩ else {} := by
  have before := executed.of_append
  have gone : heldOver (done ++ [c]) b = none := by
    rw [heldOver_eq_none_iff]
    intro q hq covers_q
    obtain ⟨member, ne⟩ := (before.mem_heldBlocks_concat_free hp released).mp hq
    exact ne (before.eq_of_covers member hp covers_q covers)
  unfold shownCell
  rw [gone, lastOver_concat_of_covers (before.blockAfter_of_releases hp released) covers]
  simp [Call.isFree_of_releases released]

/-! ## Playing a trace -/

theorem getElem?_blank (inside : b < capacity.toNat) :
    (Picture.blank capacity).cells[b]? = some {} := by
  unfold Picture.blank
  rw [Array.getElem?_replicate, if_pos inside]

/-- What a call plays takes the cell of a byte to the one after it. -/
theorem cell_of_stage (executed : Executed capacity (done ++ [c])) (started : c.time ≤ t)
    {p : Picture} (shown : p.cells[b]? = some (shownCell done t b)) :
    (p.apply (c.stage done) (c.played t)).cells[b]? = some (shownCell (done ++ [c]) t b) := by
  obtain ⟨before, follows⟩ := executed.of_concat
  cases follows with
  | @malloc e made _ _ =>
    obtain ⟨key, block⟩ := e
    have after : c.blockAfter done = some block := Call.blockAfter_of_allocation made
    rw [Call.stage_of_allocation made, Picture.apply, getElem?_modifySpan]
    -- a fill sets the cells of its block, whatever they were
    by_cases covers : block.Covers b
    · have member : (c, block) ∈ heldBlocks (done ++ [c]) := by
        rw [heldBlocks_concat_malloc done made]
        exact List.mem_append_right _ List.mem_cons_self
      rw [shownCell_of_held executed member covers, shown]
      exact if_pos covers
    · have outside : ∀ block ∈ c.blockAfter done, ¬block.Covers b := by
        intro block' member
        rw [after] at member
        cases member
        exact covers
      rw [shownCell_concat_of_not_covers executed outside, ← shown]
      exact if_neg covers
  | @free m isHeld released =>
    obtain ⟨⟨key, block⟩, made, -⟩ := before.held_inside m isHeld
    have hp : (m, block) ∈ heldBlocks done := mem_heldBlocks.mpr ⟨isHeld, key, made⟩
    have after := before.blockAfter_of_releases hp released
    rw [before.stage_of_releases hp released, Picture.apply, getElem?_modifySpan]
    by_cases covers : block.Covers b
    · rw [shownCell_concat_free executed hp released covers, shown,
        shownCell_of_held before hp covers]
      -- the clear fades the color that the allocation left, or blanks the cell once it has ended
      refine (if_pos covers).trans ?_
      rw [Option.map_some, Picture.fade, Binary64.one_le_eq_not_lt (Call.isNaN_played started)]
      cases (c.played t).lt .one with
      | false => rfl
      | true => rfl
    · have outside : ∀ block ∈ c.blockAfter done, ¬block.Covers b := by
        intro block' member
        rw [after] at member
        cases member
        exact covers
      rw [shownCell_concat_of_not_covers executed outside, ← shown]
      exact if_neg covers
  | other notMalloc notFree _ =>
    have after : c.blockAfter done = none := Call.blockAfter_of_other notMalloc notFree
    have outside : ∀ block ∈ c.blockAfter done, ¬block.Covers b := by
      intro block member
      rw [after] at member
      cases member
    rw [shownCell_concat_of_not_covers executed outside, ← shown]
    unfold Call.stage
    cases op : c.op with
    | malloc | free => simp [Call.isMalloc, Call.isFree, op] at notMalloc notFree
    | sleep | annotate => rfl

/-- Calls with good books that have all started show memory after them. -/
theorem cells_of_executed {calls : List Call} (executed : Executed capacity calls)
    (started : ∀ c ∈ calls, c.time ≤ t) (inside : b < capacity.toNat) :
    (Picture.ofSegments.play t (.blank capacity) (stages calls)).cells[b]?
      = some (shownCell calls t b) := by
  induction executed with
  | nil => exact getElem?_blank inside
  | @concat done c before follows ih =>
    have started_done : ∀ c ∈ done, c.time ≤ t := fun c member =>
      started c (List.mem_append_left _ member)
    have started_c : c.time ≤ t := started c (List.mem_append_right _ List.mem_cons_self)
    have starts : ∀ s ∈ stages done, s.start ≤ t := by
      intro s member
      obtain ⟨c', member', start⟩ := exists_of_mem_stagesFrom member
      rw [start]
      exact started_done c' member'
    rw [stages_concat, Picture.play_append _ starts,
      Picture.play_singleton (c.fraction_eq started_c _ _)]
    exact cell_of_stage (before.concat follows) started_c (ih started_done)

/-! ## The calls that have started -/

/-- In a sorted list the calls that have started come first. -/
theorem started_first {calls : List Call} (inOrder : InOrder calls) (t : Micros) :
    (∀ c ∈ startedBy calls t, c.time ≤ t) ∧
      ∀ c ∈ calls.drop (calls.countP fun c => c.time ≤ t), t < c.time := by
  unfold startedBy
  induction inOrder with
  | nil => simp
  | @cons a rest ahead _ ih =>
    by_cases started : a.time ≤ t
    · have count : (a :: rest).countP (fun c => c.time ≤ t)
          = rest.countP (fun c => c.time ≤ t) + 1 := by
        simp [started]
      rw [count, List.take_succ_cons, List.drop_succ_cons]
      exact ⟨List.forall_mem_cons.mpr ⟨started, ih.1⟩, ih.2⟩
    · -- a call that has not started holds up all calls behind it
      have later : ∀ c ∈ a :: rest, t < c.time := by
        intro c member
        rw [Micros.le_iff] at started
        rw [Micros.lt_iff]
        rcases List.mem_cons.mp member with rfl | behind
        · omega
        · have sorted := ahead c behind
          rw [Bool.not_eq_true', ← Bool.not_eq_true, before_iff] at sorted
          omega
      have none_started : (a :: rest).countP (fun c => c.time ≤ t) = 0 := by
        rw [List.countP_eq_zero]
        intro c member started
        exact Micros.not_lt.mpr (of_decide_eq_true started) (later c member)
      rw [none_started, List.take_zero, List.drop_zero]
      exact ⟨fun c member => absurd member List.not_mem_nil, later⟩

/-- The picture of a sorted trace with good books at any time shows memory after the calls that have
started. -/
theorem cells_of_segments {trace : Trace} (executed : Executed capacity trace.calls)
    (t : Micros) (inside : b < capacity.toNat) :
    (Picture.ofSegments capacity (stages trace.calls) t).cells[b]?
      = some (shownCell (startedBy trace.calls t) t b) := by
  obtain ⟨started, later⟩ := started_first trace.inOrder t
  have split : trace.calls = startedBy trace.calls t
      ++ trace.calls.drop (trace.calls.countP fun c => c.time ≤ t) :=
    (List.take_append_drop _ _).symm
  -- from here on the trace is two lists: the calls that have started, and all others
  generalize startedBy trace.calls t = front at started split ⊢
  generalize trace.calls.drop _ = back at later split
  rw [split] at executed ⊢
  have starts : ∀ s ∈ stages front, s.start ≤ t := by
    intro s member
    obtain ⟨c, member', start⟩ := exists_of_mem_stagesFrom member
    rw [start]
    exact started c member'
  have waits : ∀ s ∈ (stagesFrom front back).head?, t < s.start := by
    intro s first
    obtain ⟨c, member, start⟩ := exists_of_mem_stagesFrom (List.mem_of_mem_head? first)
    rw [start]
    exact later c member
  have stages_eq : stages (front ++ back) = stages front ++ stagesFrom front back :=
    stagesFrom_append [] front back
  rw [Picture.ofSegments, stages_eq, Picture.play_append _ starts, Picture.play_of_later waits]
  exact cells_of_executed executed.of_append started inside

end Heapscope
