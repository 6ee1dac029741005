import Heapscope.Proofs.Replay.Shown
import Mathlib.Algebra.GroupWithZero.Nat

/-!
# The picture at the end

When all calls have ended no block fades any more: the cells with a fill are the bytes of the blocks
that are held, and there are as many of them as the blocks have bytes together.

* `finish_le_totalDuration` -- the end of a trace is not before the end of any call;
* `shownCell_of_ended` -- the cell of a byte when all calls have ended;
* `countP_covered` -- blocks without a common byte cover as many bytes as they have.
-/

namespace Heapscope

/-! ## The end of a trace -/

theorem foldl_latest (calls : List Call) (latest : Micros) :
    latest ≤ calls.foldl (fun latest c => max latest c.finish) latest ∧
      ∀ c ∈ calls, c.finish ≤ calls.foldl (fun latest c => max latest c.finish) latest := by
  induction calls generalizing latest with
  | nil => exact ⟨Micros.le_iff.mpr (Nat.le_refl _), fun c member => absurd member List.not_mem_nil⟩
  | cons c rest ih =>
    rw [List.foldl_cons, List.forall_mem_cons]
    obtain ⟨le, ends⟩ := ih (max latest c.finish)
    rw [Micros.le_iff, Micros.toNat_max] at le
    simp only [Micros.le_iff] at ends ⊢
    exact ⟨by omega, by omega, ends⟩

/-- The end of a trace is not before the end of any call. -/
theorem finish_le_totalDuration {trace : Trace} {c : Call} (member : c ∈ trace.calls) :
    c.finish ≤ trace.totalDuration :=
  (foldl_latest trace.calls .zero).2 c member

/-- All calls have started at the end of a trace. -/
theorem countP_totalDuration (trace : Trace) :
    trace.calls.countP (fun c => c.time ≤ trace.totalDuration) = trace.calls.length := by
  rw [List.countP_eq_length]
  intro c member
  have ends := finish_le_totalDuration member
  have starts := c.time_le_finish
  rw [decide_eq_true_eq]
  rw [Micros.le_iff] at ends starts ⊢
  omega

theorem startedBy_totalDuration (trace : Trace) :
    startedBy trace.calls trace.totalDuration = trace.calls := by
  unfold startedBy
  rw [countP_totalDuration, List.take_length]

/-- When all calls have ended a byte of a held block has the full color of the block, and every
other byte is blank. -/
theorem shownCell_of_ended {calls : List Call} {t : Micros} (ended : ∀ c ∈ calls, c.finish ≤ t)
    (b : Nat) :
    shownCell calls t b = (heldOver calls b).elim {} fun p => ⟨some p.2.color, .one⟩ := by
  unfold shownCell
  cases held : heldOver calls b with
  | some p =>
    obtain ⟨m, block⟩ := p
    obtain ⟨isHeld, -⟩ := mem_heldBlocks.mp (List.mem_of_find?_eq_some held)
    rw [Option.elim_some, ← Call.played_of_finish_le (ended m (mem_of_mem_held isHeld))]
  | none =>
    cases last : lastOver calls b with
    | none => rfl
    | some p =>
      obtain ⟨c, block⟩ := p
      have member := List.mem_of_mem_filter (List.mem_of_getLast? last)
      have full : c.played t = .one :=
        Call.played_of_finish_le (ended c (mem_of_mem_touchedFrom member))
      -- a release that has played in full is not below one, so nothing is left to fade
      have notBelow : ¬Binary64.one.lt .one = true := by decide
      simp [full, notBelow]

/-! ## Counting cells -/

theorem countP_or_of_disjoint {α : Type} {p q : α → Bool} (l : List α)
    (disjoint : ∀ a, ¬(p a = true ∧ q a = true)) :
    l.countP (fun a => p a || q a) = l.countP p + l.countP q := by
  induction l with
  | nil => rfl
  | cons a rest ih =>
    rw [List.countP_cons, List.countP_cons, List.countP_cons, ih]
    cases hp : p a with
    | false =>
      rw [Bool.false_or, if_neg Bool.false_ne_true]
      omega
    | true =>
      have hq : ¬q a = true := fun holds => disjoint a ⟨hp, holds⟩
      rw [Bool.true_or, if_pos rfl, if_neg hq]
      omega

theorem Block.countP_covers (block : Block) (n : Nat) :
    (List.range n).countP (fun b => block.Covers b)
      = min n (block.address.toNat + block.size.toNat) - block.address.toNat := by
  induction n with
  | zero => simp
  | succ n ih =>
    rw [List.range_succ, List.countP_append, ih, List.countP_singleton]
    by_cases covers : block.Covers n
    · rw [if_pos (decide_eq_true covers)]
      unfold Covers at covers
      omega
    · rw [if_neg (fun holds => covers (of_decide_eq_true holds))]
      unfold Covers at covers
      omega

/-- Blocks without a common byte cover as many bytes as they have. -/
theorem countP_covered {capacity : UInt32} {blocks : List Block}
    (inside : ∀ block ∈ blocks, block.Inside capacity) (disjoint : blocks.Pairwise Block.Disjoint) :
    (List.range capacity.toNat).countP (fun b => blocks.any fun block => block.Covers b)
      = (blocks.map fun block => block.size.toNat).sum := by
  induction disjoint with
  | nil => simp
  | @cons block rest apart _ ih =>
    obtain ⟨first, others⟩ := List.forall_mem_cons.mp inside
    -- a byte is counted for one block only
    have exclusive : ∀ b, ¬(decide (block.Covers b) = true
        ∧ (rest.any fun block => block.Covers b) = true) := by
      rintro b ⟨covers, covered⟩
      obtain ⟨other, member, covers'⟩ := List.any_eq_true.mp covered
      exact apart other member b ⟨of_decide_eq_true covers, of_decide_eq_true covers'⟩
    have fits := first.2
    rw [List.map_cons, List.sum_cons, ← ih others]
    simp only [List.any_cons]
    rw [countP_or_of_disjoint _ exclusive, Block.countP_covers]
    omega

/-- The number of filled cells of a picture that is known cell by cell. -/
theorem Picture.filled_eq_countP {p : Picture} {n : Nat} {cell : Nat → Cell}
    (size : p.cells.size = n) (shown : ∀ b < n, p.cells[b]? = some (cell b)) :
    p.filled = (List.range n).countP fun b => (cell b).fill.isSome := by
  have cells : p.cells.toList = (List.range n).map cell := by
    apply List.ext_getElem?
    intro b
    rw [Array.getElem?_toList, List.getElem?_map]
    by_cases inside : b < n
    · rw [shown b inside, List.getElem?_range inside]
      rfl
    · rw [Array.getElem?_eq_none (by omega), List.getElem?_eq_none (by simp; omega)]
      rfl
  unfold filled
  rw [← Array.countP_toList, cells, List.countP_map]
  rfl

end Heapscope
