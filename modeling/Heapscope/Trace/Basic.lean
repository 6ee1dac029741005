import Heapscope.Call

/-!
# Traces

A trace is a list of calls sorted by time and, at one time, by thread.  Calls that agree in both
keep the order in which they were made.

* `firstUnsorted` -- the index of the first call that sorts before the one in front of it;
* `Trace.ofCalls?` -- accepts exactly the sorted lists;
* `Trace.ofUnsorted` -- sorts any list, stably.
-/

namespace Heapscope

/-- The index of the first call that sorts before the one in front of it, where the call at the
head has the given index. -/
def firstUnsortedFrom (index : Nat) : List Call → Option Nat
  | a :: b :: rest =>
    if b.before a then some (index + 1) else firstUnsortedFrom (index + 1) (b :: rest)
  | _ => none

/-- The index of the first call that sorts before the one in front of it. -/
def firstUnsorted (calls : List Call) : Option Nat := firstUnsortedFrom 0 calls

/-- The calls in the order of traces. -/
def sortCalls (calls : List Call) : List Call := calls.mergeSort fun a b => !b.before a

/-- No call sorts before an earlier one. -/
def InOrder (calls : List Call) : Prop := calls.Pairwise fun a b => (!b.before a) = true

/-- Order of time, then of thread, as an order of pairs of numbers. -/
theorem before_iff {a b : Call} :
    a.before b = true ↔ a.time.count.toNat < b.time.count.toNat ∨
      (a.time.count.toNat = b.time.count.toNat ∧ a.thread.toNat < b.thread.toNat) := by
  have time_lt : a.time < b.time ↔ a.time.count.toNat < b.time.count.toNat :=
    UInt64.lt_iff_toNat_lt
  have time_eq : a.time = b.time ↔ a.time.count.toNat = b.time.count.toNat := by
    rw [UInt64.toNat_inj]
    exact ⟨fun h => by rw [h], fun h => by cases ha : a.time; cases hb : b.time; simp_all⟩
  have thread_lt : a.thread < b.thread ↔ a.thread.toNat < b.thread.toNat :=
    UInt32.lt_iff_toNat_lt
  simp [Call.before, time_lt, time_eq, thread_lt]

/-- Going without inversion is transitive. -/
theorem not_before_trans (a b c : Call) (hab : (!b.before a) = true) (hbc : (!c.before b) = true) :
    (!c.before a) = true := by
  simp only [Bool.not_eq_true', ← Bool.not_eq_true, before_iff] at *
  omega

/-- Of two calls one goes before the other without inversion. -/
theorem not_before_total (a b : Call) : ((!b.before a) || (!a.before b)) = true := by
  by_cases h : b.before a = true
  · have : ¬a.before b = true := by rw [before_iff] at *; omega
    simp [this]
  · simp [h]

/-- Sorting leaves no inversion. -/
theorem inOrder_sortCalls (calls : List Call) : InOrder (sortCalls calls) :=
  List.pairwise_mergeSort not_before_trans not_before_total calls

/-- Without inversion between neighbours there is none at all. -/
theorem inOrder_of_firstUnsortedFrom {calls : List Call} {index : Nat}
    (h : firstUnsortedFrom index calls = none) : InOrder calls := by
  induction calls generalizing index with
  | nil => exact .nil
  | cons a rest ih =>
    cases rest with
    | nil => exact .cons (by simp) .nil
    | cons b rest =>
      simp only [firstUnsortedFrom] at h
      split at h
      · simp at h
      · rename_i hba
        have tail := ih h
        refine .cons ?_ tail
        have hab : (!b.before a) = true := by simpa using hba
        intro c hc
        rcases List.mem_cons.mp hc with rfl | hc
        · exact hab
        · exact not_before_trans a b c hab ((List.pairwise_cons.mp tail).1 c hc)

/-- A list without inversions has no first one. -/
theorem firstUnsortedFrom_of_inOrder {calls : List Call} (h : InOrder calls) (index : Nat) :
    firstUnsortedFrom index calls = none := by
  induction calls generalizing index with
  | nil => rfl
  | cons a rest ih =>
    cases rest with
    | nil => rfl
    | cons b rest =>
      have hab := (List.pairwise_cons.mp h).1 b (by simp)
      have : ¬b.before a = true := by simpa using hab
      simp only [firstUnsortedFrom, this]
      exact ih (List.pairwise_cons.mp h).2 (index + 1)

/-- A sorted list of calls. -/
structure Trace where
  calls : List Call
  /-- Sorted by time, then by thread. -/
  inOrder : InOrder calls

namespace Trace

instance : DecidableEq Trace := fun a b =>
  if h : a.calls = b.calls then .isTrue (by cases a; cases b; simp_all)
  else .isFalse (fun e => h (by rw [e]))

/-- Takes a sorted list as it is; otherwise names the first call out of order. -/
def ofCalls? (calls : List Call) : Except Invalid Trace :=
  match h : firstUnsorted calls with
  | none => .ok ⟨calls, inOrder_of_firstUnsortedFrom h⟩
  | some index => .error (.unsorted index)

/-- A sorted list is accepted. -/
theorem ofCalls?_of_inOrder {calls : List Call} (inOrder : InOrder calls) :
    ofCalls? calls = .ok ⟨calls, inOrder⟩ := by
  have none_unsorted : firstUnsorted calls = none := firstUnsortedFrom_of_inOrder inOrder 0
  unfold ofCalls?
  split
  · rfl
  · rename_i index found
    rw [none_unsorted] at found
    cases found

/-- Sorts a list; calls with equal time and thread keep their order. -/
def ofUnsorted (calls : List Call) : Trace := ⟨sortCalls calls, inOrder_sortCalls calls⟩

/-- The latest end of a call. -/
def totalDuration (t : Trace) : Micros := t.calls.foldl (fun latest c => max latest c.finish) .zero

/-- The number of calls of a function. -/
def count (t : Trace) (name : String) : Nat := t.calls.countP fun c => c.op.name == name

end Trace

end Heapscope
