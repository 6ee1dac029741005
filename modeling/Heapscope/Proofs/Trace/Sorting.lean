import Heapscope.Trace.Basic
import Mathlib.Data.Prod.Lex
import Mathlib.Order.Bounds.Basic

/-!
# The order of traces

A call has a moment, which is its time and then its thread, and traces stand in the order of
moments.  Calls of one moment keep the order in which they were made, and this settles where every
call goes: a list of calls has one stable order.

Acceptance compares neighbours only.  That is enough to find every list out of order, and what it
names is the first place where the moments step back.

* `Call.moment`, `Chronological` -- the order, without reference to how it is tested;
* `StablySorted`, `eq_of_callsAt_eq` -- a stable order, and that there is only one;
* `stablySorted_sortCalls`, `sortCalls_of_chronological` -- what sorting leads to, and what it
  leaves alone;
* `firstUnsortedFrom_least` -- a walk over neighbours finds the first step back;
* `Trace.sorts_stably` -- sorting and acceptance together.
-/

namespace Heapscope

/-! ## Moments -/

/-- What calls are sorted by: the time, and at one time the thread. -/
def Call.moment (c : Call) : Nat ×ₗ Nat := toLex (c.time.count.toNat, c.thread.toNat)

/-- No call has an earlier moment than one in front of it. -/
def Chronological (calls : List Call) : Prop := calls.Pairwise fun a b => a.moment ≤ b.moment

theorem before_iff_moment_lt {a b : Call} : a.before b = true ↔ a.moment < b.moment := by
  rw [before_iff, Prod.Lex.lt_iff]
  rfl

theorem not_before_iff {a b : Call} : (!b.before a) = true ↔ a.moment ≤ b.moment := by
  rw [Bool.not_eq_true', ← Bool.not_eq_true, before_iff_moment_lt, not_lt]

theorem inOrder_iff {calls : List Call} : InOrder calls ↔ Chronological calls :=
  List.Pairwise.iff fun _ _ => not_before_iff

/-- The first call has the least moment. -/
theorem Chronological.head_le {a c : Call} {rest : List Call} (sorted : Chronological (a :: rest))
    (member : c ∈ a :: rest) : a.moment ≤ c.moment := by
  rcases List.mem_cons.mp member with rfl | later
  · exact le_refl _
  · exact (List.pairwise_cons.mp sorted).1 c later

/-! ## Stable orders -/

/-- The calls of a moment. -/
def callsAt (m : Nat ×ₗ Nat) (calls : List Call) : List Call := calls.filter fun c => c.moment = m

/-- A list holds given calls in the order of their moments, and those of one moment in the order in
which they were given. -/
structure StablySorted (calls sorted : List Call) : Prop where
  perm : sorted.Perm calls
  chronological : Chronological sorted
  stable : ∀ m, callsAt m sorted = callsAt m calls

theorem mem_of_callsAt_eq {calls calls' : List Call} {c : Call}
    (same : callsAt c.moment calls = callsAt c.moment calls') (member : c ∈ calls) :
    c ∈ calls' := by
  have own : c ∈ callsAt c.moment calls := List.mem_filter.mpr ⟨member, by simp⟩
  rw [same] at own
  exact (List.mem_filter.mp own).1

/-- In a chronological list the calls of each moment are all that can be chosen.  By induction on
the lists: the first calls have one moment, since each list holds the first call of the other, and
so they are the first of that moment in both. -/
theorem eq_of_callsAt_eq {calls calls' : List Call} (sorted : Chronological calls)
    (sorted' : Chronological calls') (same : ∀ m, callsAt m calls = callsAt m calls') :
    calls = calls' := by
  induction calls generalizing calls' with
  | nil =>
    cases calls' with
    | nil => rfl
    | cons b rest' => exact absurd (mem_of_callsAt_eq (same _).symm List.mem_cons_self) (by simp)
  | cons a rest ih =>
    cases calls' with
    | nil => exact absurd (mem_of_callsAt_eq (same _) List.mem_cons_self) (by simp)
    | cons b rest' =>
      have moments : a.moment = b.moment := by
        have held : b ∈ a :: rest := mem_of_callsAt_eq (same _).symm List.mem_cons_self
        have held' : a ∈ b :: rest' := mem_of_callsAt_eq (same _) List.mem_cons_self
        exact le_antisymm (sorted.head_le held) (sorted'.head_le held')
      have heads : a = b := by
        have own := same a.moment
        simp only [callsAt, List.filter_cons, moments, decide_true, if_true] at own
        exact (List.cons.inj own).1
      subst heads
      have rests : rest = rest' := by
        refine ih (List.pairwise_cons.mp sorted).2 (List.pairwise_cons.mp sorted').2 ?_
        intro m
        have own := same m
        simp only [callsAt, List.filter_cons] at own
        split at own
        · exact (List.cons.inj own).2
        · exact own
      rw [rests]

/-! ## Sorting -/

theorem perm_sortCalls (calls : List Call) : (sortCalls calls).Perm calls :=
  List.mergeSort_perm calls _

/-- The calls of one moment are in order as they stand, so sorting keeps them. -/
theorem callsAt_sortCalls (m : Nat ×ₗ Nat) (calls : List Call) :
    callsAt m (sortCalls calls) = callsAt m calls := by
  have level : (callsAt m calls).Pairwise fun a b => (!b.before a) = true := by
    apply List.pairwise_of_forall_mem_list
    intro a ha b hb
    have moment_a : a.moment = m := by simpa using (List.mem_filter.mp ha).2
    have moment_b : b.moment = m := by simpa using (List.mem_filter.mp hb).2
    rw [not_before_iff, moment_a, moment_b]
  have kept : (callsAt m calls).Sublist (sortCalls calls) :=
    List.sublist_mergeSort not_before_trans not_before_total level List.filter_sublist
  have inside : (callsAt m calls).Sublist (callsAt m (sortCalls calls)) := by
    simpa only [callsAt, List.filter_filter, Bool.and_self] using
      kept.filter fun c => c.moment = m
  have lengths : (callsAt m (sortCalls calls)).length = (callsAt m calls).length :=
    ((perm_sortCalls calls).filter _).length_eq
  exact (inside.eq_of_length lengths.symm).symm

theorem stablySorted_sortCalls (calls : List Call) : StablySorted calls (sortCalls calls) where
  perm := perm_sortCalls calls
  chronological := inOrder_iff.mp (inOrder_sortCalls calls)
  stable m := callsAt_sortCalls m calls

theorem sortCalls_of_chronological {calls : List Call} (sorted : Chronological calls) :
    sortCalls calls = calls :=
  List.mergeSort_of_pairwise (inOrder_iff.mpr sorted)

/-! ## Acceptance -/

/-- The call at an index has an earlier moment than the one in front of it. -/
def StepsBack (calls : List Call) (index : Nat) : Prop :=
  ∃ i a b, index = i + 1 ∧ calls[i]? = some a ∧ calls[i + 1]? = some b ∧ b.moment < a.moment

theorem stepsBack_cons_cons {a b : Call} {rest : List Call} {index : Nat} :
    StepsBack (a :: b :: rest) index ↔
      (index = 1 ∧ b.moment < a.moment) ∨ ∃ i, index = i + 1 ∧ StepsBack (b :: rest) i := by
  constructor
  · rintro ⟨i, c, d, rfl, at_i, at_next, back⟩
    cases i with
    | zero =>
      cases Option.some.inj at_i
      cases Option.some.inj at_next
      exact .inl ⟨rfl, back⟩
    | succ i => exact .inr ⟨i + 1, rfl, i, c, d, rfl, at_i, at_next, back⟩
  · rintro (⟨rfl, back⟩ | ⟨_, rfl, i, c, d, rfl, at_i, at_next, back⟩)
    · exact ⟨0, a, b, rfl, rfl, rfl, back⟩
    · exact ⟨i + 1, c, d, rfl, at_i, at_next, back⟩

theorem not_stepsBack {calls : List Call} (sorted : Chronological calls) (index : Nat) :
    ¬StepsBack calls index := by
  rintro ⟨i, a, b, rfl, at_i, at_next, back⟩
  obtain ⟨small, rfl⟩ := List.getElem?_eq_some_iff.mp at_i
  obtain ⟨small', rfl⟩ := List.getElem?_eq_some_iff.mp at_next
  have le := List.pairwise_iff_getElem.mp sorted i (i + 1) small small' (Nat.lt_succ_self i)
  exact absurd back (not_lt.mpr le)

/-- By induction on the calls: a step back at the head is the first, and one behind it is first when
the head does not step back. -/
theorem firstUnsortedFrom_least {calls : List Call} {start index : Nat}
    (found : firstUnsortedFrom start calls = some index) :
    ∃ i, index = start + i ∧ IsLeast {j | StepsBack calls j} i := by
  induction calls generalizing start with
  | nil => simp [firstUnsortedFrom] at found
  | cons a rest ih =>
    cases rest with
    | nil => simp [firstUnsortedFrom] at found
    | cons b rest =>
      rw [firstUnsortedFrom] at found
      split at found
      · rename_i back
        refine ⟨1, (Option.some.inj found).symm, stepsBack_cons_cons.mpr (.inl ⟨rfl, ?_⟩), ?_⟩
        · exact before_iff_moment_lt.mp back
        · rintro j ⟨i, _, _, rfl, -⟩
          omega
      · rename_i level
        rw [before_iff_moment_lt] at level
        obtain ⟨i, rfl, steps, least⟩ := ih found
        refine ⟨i + 1, by omega, stepsBack_cons_cons.mpr (.inr ⟨i, rfl, steps⟩), ?_⟩
        intro j later
        rcases stepsBack_cons_cons.mp later with ⟨-, back⟩ | ⟨k, rfl, steps'⟩
        · exact absurd back level
        · exact Nat.succ_le_succ (least steps')

namespace Trace

theorem ofUnsorted_of_chronological {calls : List Call} (sorted : Chronological calls) :
    ofUnsorted calls = ⟨calls, inOrder_iff.mpr sorted⟩ := by
  unfold ofUnsorted
  congr 1
  exact sortCalls_of_chronological sorted

theorem ofCalls?_of_chronological {calls : List Call} (sorted : Chronological calls) :
    ofCalls? calls = .ok (ofUnsorted calls) := by
  rw [ofUnsorted_of_chronological sorted]
  exact ofCalls?_of_inOrder (inOrder_iff.mpr sorted)

/-- A list is accepted, or the first step back is named. -/
theorem ofCalls?_verdict (calls : List Call) :
    (Chronological calls ∧ ofCalls? calls = .ok (ofUnsorted calls)) ∨
    ∃ i, ofCalls? calls = .error (.unsorted i) ∧ IsLeast {j | StepsBack calls j} i := by
  cases walk : firstUnsorted calls with
  | none =>
    have sorted : Chronological calls := inOrder_iff.mp (inOrder_of_firstUnsortedFrom walk)
    exact .inl ⟨sorted, ofCalls?_of_chronological sorted⟩
  | some index =>
    obtain ⟨i, rfl, least⟩ := firstUnsortedFrom_least walk
    refine .inr ⟨i, ?_, least⟩
    unfold ofCalls?
    split
    · rename_i none_found
      rw [walk] at none_found
      cases none_found
    · rename_i index found
      rw [walk, Nat.zero_add] at found
      rw [Option.some.inj found]

/-- Sorting puts calls into their one stable order and leaves exactly the lists alone that are in
the order of moments.  These are the ones that are accepted, as they are; of any other list the
least index is named whose call has an earlier moment than the one in front of it.  So a sorted list
is accepted, and is not changed by that. -/
theorem sorts_stably (calls : List Call) :
    (∀ l, StablySorted calls l ↔ l = (ofUnsorted calls).calls) ∧
    ((ofUnsorted calls).calls = calls ↔ Chronological calls) ∧
    (∀ t, ofCalls? calls = .ok t ↔ Chronological calls ∧ t = ofUnsorted calls) ∧
    (∀ e, ofCalls? calls = .error e ↔
      ∃ i, e = .unsorted i ∧ IsLeast {j | StepsBack calls j} i) ∧
    ofCalls? (ofUnsorted calls).calls = .ok (ofUnsorted calls) := by
  have sorted := stablySorted_sortCalls calls
  refine ⟨?stable, ?alone, ?accepted, ?refused, ofCalls?_of_inOrder (ofUnsorted calls).inOrder⟩
  case stable =>
    intro l
    constructor
    · intro stable
      refine eq_of_callsAt_eq stable.chronological sorted.chronological ?_
      exact fun m => (stable.stable m).trans (sorted.stable m).symm
    · rintro rfl
      exact sorted
  case alone =>
    constructor
    · intro same
      rw [← same]
      exact sorted.chronological
    · exact sortCalls_of_chronological
  case accepted =>
    intro t
    constructor
    · intro ok
      rcases ofCalls?_verdict calls with ⟨chronological, accepted⟩ | ⟨i, refused, -⟩
      · rw [accepted] at ok
        exact ⟨chronological, (Except.ok.inj ok).symm⟩
      · rw [refused] at ok
        cases ok
    · rintro ⟨chronological, rfl⟩
      exact ofCalls?_of_chronological chronological
  case refused =>
    intro e
    rcases ofCalls?_verdict calls with ⟨chronological, accepted⟩ | ⟨i, refused, least⟩
    · rw [accepted]
      refine iff_of_false nofun ?_
      rintro ⟨i, -, steps, -⟩
      exact not_stepsBack chronological i steps
    · rw [refused]
      constructor
      · intro same
        exact ⟨i, (Except.error.inj same).symm, least⟩
      · rintro ⟨j, rfl, least'⟩
        rw [least.unique least']

end Trace

end Heapscope
