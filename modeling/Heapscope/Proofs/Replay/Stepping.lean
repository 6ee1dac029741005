import Heapscope.Proofs.Replay.Seeking
import Heapscope.Replay.Frame
import Mathlib.Data.List.Sort
import Mathlib.Data.Nat.Find
import Mathlib.Logic.Function.Iterate

/-!
# Stepping through a timeline

Stepping forward stops at each start time of the trace once and then at its end; stepping back from
there stops at the same times in the opposite order and then at zero.  Either walk goes along a
sorted list of times, where the step after a time is the next entry of the list.

* `find?_of_walk`, `time_of_walk` -- a walk along a sorted list;
* `Trace.starts` -- the start times of a trace, each once and in order;
* `Timeline.next_time`, `Timeline.prev_time` -- one step;
* `Timeline.framesFrom_eq` -- the frames of a trace are those of the steps to its end;
* `Timeline.stepping_visits_starts` -- both walks, the positions on the way, and the frames.
-/

namespace Heapscope

/-! ## Lists without repetitions -/

theorem mem_dropRepeats {l : List Micros} {t : Micros} : t ∈ dropRepeats l ↔ t ∈ l := by
  induction l with
  | nil => rfl
  | cons a rest ih =>
    cases rest with
    | nil => rfl
    | cons b rest =>
      unfold dropRepeats
      split
      · rename_i same
        rw [ih, same]
        simp
      · rw [List.mem_cons, ih, List.mem_cons (l := b :: rest)]

/-- In a sorted list equal times are neighbours, so all of them are dropped. -/
theorem pairwise_dropRepeats {R : Micros → Micros → Prop}
    (antisymm : ∀ {a b}, R a b → R b a → a = b) {l : List Micros} (sorted : l.Pairwise R) :
    (dropRepeats l).Pairwise fun a b => R a b ∧ a ≠ b := by
  induction l with
  | nil => exact .nil
  | cons a rest ih =>
    obtain ⟨first, others⟩ := List.pairwise_cons.mp sorted
    cases rest with
    | nil => exact List.pairwise_singleton _ _
    | cons b rest =>
      unfold dropRepeats
      split
      · exact ih others
      · rename_i ne
        refine List.pairwise_cons.mpr ⟨?_, ih others⟩
        intro c member
        rw [mem_dropRepeats] at member
        refine ⟨first c member, ?_⟩
        rintro rfl
        rcases List.mem_cons.mp member with same | behind
        · exact ne same
        · exact ne (antisymm (first b List.mem_cons_self) ((List.pairwise_cons.mp others).1 a behind))

/-- The times up to a given one lead a sorted list. -/
theorem length_takeWhile_of_sorted {l : List Micros} (sorted : l.Pairwise (· < ·)) (t : Micros) :
    (l.takeWhile fun s => s ≤ t).length = l.countP fun s => s ≤ t := by
  induction l with
  | nil => rfl
  | cons a rest ih =>
    obtain ⟨first, others⟩ := List.pairwise_cons.mp sorted
    by_cases reached : a ≤ t
    · rw [List.takeWhile_cons_of_pos (by simpa using reached),
        List.countP_cons_of_pos (by simpa using reached), List.length_cons, ih others]
    · have later : rest.countP (fun s => s ≤ t) = 0 := by
        rw [List.countP_eq_zero]
        intro s member
        have lt := first s member
        simp only [decide_eq_true_eq]
        rw [Micros.lt_iff] at lt
        rw [Micros.le_iff] at reached ⊢
        omega
      rw [List.takeWhile_cons_of_neg (by simpa using reached),
        List.countP_cons_of_neg (by simpa using reached), later]
      rfl

/-! ## Walks -/

section Walks

variable {first last : Micros} {rest : List Micros}

/-- The times of a walk that has come to its end. -/
theorem map_range_of_walk {n : Nat} (long : (first :: rest).length ≤ n) :
    (List.range n).map (fun i => (first :: rest)[i]?.getD last)
      = (first :: rest) ++ List.replicate (n - (first :: rest).length) last := by
  refine List.ext_getElem (by simp at long ⊢; omega) ?_
  intro i lt lt'
  rw [List.getElem_map, List.getElem_range, List.getElem_append]
  split
  · rename_i inside
    rw [List.getElem?_eq_getElem inside]
    rfl
  · rename_i outside
    rw [List.getElem?_eq_none (Nat.le_of_not_lt outside), List.getElem_replicate]
    rfl

theorem mem_of_walk {t : Micros} {n : Nat} (long : (first :: rest).length < n) :
    t ∈ dropRepeats ((List.range n).map fun i => (first :: rest)[i]?.getD last)
      ↔ t = first ∨ t ∈ rest ∨ t = last := by
  have ended : n - (first :: rest).length ≠ 0 := by omega
  rw [mem_dropRepeats, map_range_of_walk (Nat.le_of_lt long), List.mem_append, List.mem_cons,
    List.mem_replicate, or_assoc]
  simp only [ended, ne_eq, not_false_eq_true, true_and]

variable {R : Micros → Micros → Prop}

/-- Without repetitions the times of a walk that has come to its end are sorted. -/
theorem pairwise_of_walk (asymm : ∀ {a b}, R a b → ¬R b a) (sorted : (first :: rest).Pairwise R)
    (reaches : ∀ s ∈ first :: rest, R s last ∨ s = last) {n : Nat}
    (long : (first :: rest).length ≤ n) :
    (dropRepeats ((List.range n).map fun i => (first :: rest)[i]?.getD last)).Pairwise R := by
  have weakly : ((List.range n).map fun i => (first :: rest)[i]?.getD last).Pairwise
      fun a b => R a b ∨ a = b := by
    rw [map_range_of_walk long]
    refine List.pairwise_append.mpr ⟨sorted.imp .inl, ?_, ?_⟩
    · exact List.pairwise_replicate.mpr (.inr (.inr rfl))
    · intro s member t ended
      rw [(List.mem_replicate.mp ended).2]
      exact reaches s member
  have antisymm : ∀ {a b}, (R a b ∨ a = b) → (R b a ∨ b = a) → a = b := by
    rintro a b (lt | rfl) (gt | same)
    · exact absurd gt (asymm lt)
    · exact same.symm
    · rfl
    · rfl
  refine (pairwise_dropRepeats antisymm weakly).imp ?_
  rintro a b ⟨lt | same, ne⟩
  · exact lt
  · exact absurd same ne

variable [DecidableRel R]

/-- The first entry behind a place on a sorted list is the next one; behind the end there is none. -/
theorem find?_of_walk (asymm : ∀ {a b}, R a b → ¬R b a) (sorted : (first :: rest).Pairwise R)
    (ends : ∀ s ∈ rest, ¬R last s) (i : Nat) :
    rest.find? (fun s => R ((first :: rest)[i]?.getD last) s) = rest[i]? := by
  induction rest generalizing first i with
  | nil => rfl
  | cons b rest ih =>
    obtain ⟨before, others⟩ := List.pairwise_cons.mp sorted
    cases i with
    | zero => exact List.find?_cons_of_pos (by simpa using before b List.mem_cons_self)
    | succ i =>
      rw [List.getElem?_cons_succ, List.getElem?_cons_succ]
      -- the place is `b`, behind `b`, or the end, and `b` is behind none of these
      have passed : ¬R ((b :: rest)[i]?.getD last) b := by
        cases at_i : (b :: rest)[i]? with
        | none => exact ends b List.mem_cons_self
        | some t =>
          rcases List.mem_cons.mp (List.mem_of_getElem? at_i) with rfl | behind
          · exact fun self => asymm self self
          · exact asymm ((List.pairwise_cons.mp others).1 t behind)
      rw [List.find?_cons_of_neg (by simpa using passed)]
      exact ih others (fun s member => ends s (List.mem_cons_of_mem _ member)) i

/-- Going from each time to the first entry behind it, and to the end when there is none, is a walk
along the list. -/
theorem time_of_walk (asymm : ∀ {a b}, R a b → ¬R b a) (sorted : (first :: rest).Pairwise R)
    (ends : ∀ s ∈ rest, ¬R last s) {f : Nat → Micros} (starts : f 0 = first)
    (goes : ∀ i, f (i + 1) = (rest.find? fun s => R (f i) s).getD last) (i : Nat) :
    f i = (first :: rest)[i]?.getD last := by
  induction i with
  | zero => exact starts
  | succ i ih =>
    rw [goes, ih, find?_of_walk asymm sorted ends]
    rfl

end Walks

/-! ## The start times of a trace -/

namespace Trace

variable {trace : Trace} {t : Micros}

/-- The distinct start times of a trace. -/
def starts (trace : Trace) : List Micros := dropRepeats (trace.calls.map Call.time)

theorem mem_starts : t ∈ trace.starts ↔ ∃ c ∈ trace.calls, c.time = t := by
  unfold starts
  rw [mem_dropRepeats, List.mem_map]

theorem pairwise_starts (trace : Trace) : trace.starts.Pairwise (· < ·) := by
  have sorted : (trace.calls.map Call.time).Pairwise (· ≤ ·) := by
    rw [List.pairwise_map]
    refine trace.inOrder.imp ?_
    intro a b ordered
    rw [Bool.not_eq_true', ← Bool.not_eq_true, before_iff] at ordered
    rw [Micros.le_iff]
    omega
  have antisymm : ∀ {a b : Micros}, a ≤ b → b ≤ a → a = b := by
    intro a b le ge
    rw [Micros.le_iff] at le ge
    exact Micros.eq_iff.mpr (Nat.le_antisymm le ge)
  refine (pairwise_dropRepeats antisymm sorted).imp ?_
  rintro a b ⟨le, ne⟩
  rw [ne_eq, Micros.eq_iff] at ne
  rw [Micros.le_iff] at le
  rw [Micros.lt_iff]
  omega

/-- No call starts after the end. -/
theorem le_totalDuration_of_mem_starts (member : t ∈ trace.starts) : t ≤ trace.totalDuration := by
  obtain ⟨c, call, rfl⟩ := mem_starts.mp member
  have starts := Micros.le_iff.mp c.time_le_finish
  have ends := Micros.le_iff.mp (finish_le_totalDuration call)
  exact Micros.le_iff.mpr (Nat.le_trans starts ends)

end Trace

/-! ## One step -/

namespace Timeline

variable {ν : Type} [View ν] {trace : Trace} {r r₀ s : Timeline ν}

/-- A timeline with the steps and the end of a trace. -/
structure Stepped (trace : Trace) (r : Timeline ν) : Prop where
  steps_eq : r.steps = trace.starts
  total_eq : r.total = trace.totalDuration

theorem stepped_of_start {view : ν} (ok : start trace view = .ok r) : Stepped trace r := by
  obtain ⟨segments, handles, -, found, -, -, rfl⟩ := start_ok_iff.mp ok
  refine ⟨?_, rfl⟩
  show dropRepeats (segments.map Segment.start) = trace.starts
  rw [(segments_playedBy found).starts_eq]
  rfl

theorem time_of_start {view : ν} (ok : start trace view = .ok r) : r.time = .zero := by
  obtain ⟨segments, handles, -, -, -, -, rfl⟩ := start_ok_iff.mp ok
  rfl

namespace Stepped

theorem moved (stepped : Stepped trace r) (moved : r.Moved s) : Stepped trace s :=
  moved.keeps stepped fun _ _ _ before => ⟨before.steps_eq, before.total_eq⟩

theorem seek_time (stepped : Stepped trace r) {t : Micros} (le : t ≤ trace.totalDuration) :
    (r.seek t).time = t := by
  show (if t ≤ r.total then t else r.total) = t
  rw [stepped.total_eq, if_pos le]

end Stepped

theorem next_time (stepped : Stepped trace r) :
    r.next.time = (trace.starts.find? fun s => r.time < s).getD trace.totalDuration := by
  unfold next
  rw [stepped.steps_eq]
  cases found : trace.starts.find? fun s => r.time < s with
  | none => exact stepped.total_eq
  | some s =>
    exact stepped.seek_time (Trace.le_totalDuration_of_mem_starts (List.mem_of_find?_eq_some found))

theorem next_progress (stepped : Stepped trace r)
    (none_after : (trace.starts.find? fun s => r.time < s) = none) : r.next.progress = .one := by
  unfold next
  rw [stepped.steps_eq, none_after]

theorem prev_time (stepped : Stepped trace r) :
    r.prev.time = (trace.starts.reverse.find? fun s => s < r.time).getD .zero := by
  unfold prev
  rw [stepped.steps_eq]
  cases found : trace.starts.reverse.find? fun s => s < r.time with
  | none => rfl
  | some s =>
    refine stepped.seek_time (Trace.le_totalDuration_of_mem_starts ?_)
    exact List.mem_reverse.mp (List.mem_of_find?_eq_some found)

theorem prev_progress (stepped : Stepped trace r)
    (none_before : (trace.starts.reverse.find? fun s => s < r.time) = none) :
    r.prev.progress = .zero := by
  unfold prev
  rw [stepped.steps_eq, none_before]

/-- A step back does not lead to a later time. -/
theorem prev_time_le (stepped : Stepped trace r) : r.prev.time ≤ r.time := by
  rw [prev_time stepped, Micros.le_iff]
  cases found : trace.starts.reverse.find? fun s => s < r.time with
  | none => exact Nat.zero_le _
  | some s =>
    have before : s < r.time := by simpa using List.find?_some found
    exact Nat.le_of_lt (Micros.lt_iff.mp before)

/-- A step forward leads to a later time, until the end. -/
theorem lt_next_time (stepped : Stepped trace r) (before : r.time < trace.totalDuration) :
    r.time < r.next.time := by
  rw [next_time stepped]
  cases found : trace.starts.find? fun s => r.time < s with
  | none => exact before
  | some s => simpa using List.find?_some found

theorem moved_next_iterate (moved : r₀.Moved r) (i : Nat) : r₀.Moved (next^[i] r) := by
  induction i with
  | zero => exact moved
  | succ i ih =>
    rw [Function.iterate_succ_apply']
    exact .next ih

theorem moved_prev_iterate (moved : r₀.Moved r) (i : Nat) : r₀.Moved (prev^[i] r) := by
  induction i with
  | zero => exact moved
  | succ i ih =>
    rw [Function.iterate_succ_apply']
    exact .prev ih

/-! ## Walking to the end and back -/

/-- The stops of a walk to the end, behind zero. -/
def ahead (trace : Trace) : List Micros := trace.starts.filter fun s => .zero < s

/-- The stops of a walk back from the end, behind the end. -/
def behind (trace : Trace) : List Micros :=
  (trace.starts.filter fun s => s < trace.totalDuration).reverse

theorem pairwise_ahead (trace : Trace) : (.zero :: ahead trace).Pairwise (· < ·) := by
  refine List.pairwise_cons.mpr ⟨?_, trace.pairwise_starts.filter _⟩
  intro s member
  simpa using (List.mem_filter.mp member).2

theorem pairwise_behind (trace : Trace) :
    (trace.totalDuration :: behind trace).Pairwise fun a b => b < a := by
  refine List.pairwise_cons.mpr ⟨?_, List.pairwise_reverse.mpr (trace.pairwise_starts.filter _)⟩
  intro s member
  simpa using (List.mem_filter.mp (List.mem_reverse.mp member)).2

/-- What starts after a time starts above zero. -/
theorem find?_ahead (t : Micros) :
    (trace.starts.find? fun s => t < s) = (ahead trace).find? fun s => t < s := by
  unfold ahead
  rw [List.find?_filter]
  congr 1
  funext s
  simp only [decide_eq_true_eq, decide_eq_decide, Micros.lt_iff]
  have zero : Micros.zero.count.toNat = 0 := rfl
  omega

/-- What starts before a time of the trace starts before the end. -/
theorem find?_behind {t : Micros} (le : t ≤ trace.totalDuration) :
    (trace.starts.reverse.find? fun s => s < t) = (behind trace).find? fun s => s < t := by
  unfold behind
  rw [← List.filter_reverse, List.find?_filter]
  congr 1
  funext s
  simp only [decide_eq_true_eq, decide_eq_decide, Micros.lt_iff]
  rw [Micros.le_iff] at le
  omega

theorem not_lt_of_mem_ahead : ∀ s ∈ ahead trace, ¬trace.totalDuration < s := by
  intro s member
  exact Micros.not_lt.mpr (Trace.le_totalDuration_of_mem_starts (List.mem_filter.mp member).1)

theorem length_ahead_le (trace : Trace) : (ahead trace).length ≤ trace.starts.length :=
  List.length_filter_le _ _

theorem length_behind_le (trace : Trace) : (behind trace).length ≤ trace.starts.length := by
  unfold behind
  rw [List.length_reverse]
  exact List.length_filter_le _ _

theorem time_next_iterate (stepped : Stepped trace r) (fresh : r.time = .zero) (i : Nat) :
    (next^[i] r).time = (.zero :: ahead trace)[i]?.getD trace.totalDuration := by
  refine time_of_walk Micros.lt_asymm (pairwise_ahead trace) not_lt_of_mem_ahead
    (f := fun i => (next^[i] r).time) fresh ?_ i
  intro i
  rw [Function.iterate_succ_apply', next_time (stepped.moved (moved_next_iterate .refl i)),
    find?_ahead]

theorem time_next_iterate_of_many (stepped : Stepped trace r) (fresh : r.time = .zero) {n : Nat}
    (many : trace.starts.length < n) : (next^[n] r).time = trace.totalDuration := by
  have few := length_ahead_le trace
  rw [time_next_iterate stepped fresh, List.getElem?_eq_none (by rw [List.length_cons]; omega)]
  rfl

theorem progress_next_iterate (stepped : Stepped trace r) (fresh : r.time = .zero) {n : Nat}
    (many : trace.starts.length < n) : (next^[n] r).progress = .one := by
  obtain ⟨k, rfl⟩ : ∃ k, n = k + 1 := ⟨n - 1, by omega⟩
  have few := length_ahead_le trace
  rw [Function.iterate_succ_apply']
  refine next_progress (stepped.moved (moved_next_iterate .refl k)) ?_
  rw [time_next_iterate stepped fresh, find?_ahead,
    find?_of_walk Micros.lt_asymm (pairwise_ahead trace) not_lt_of_mem_ahead]
  exact List.getElem?_eq_none (by omega)

theorem time_prev_iterate_le (stepped : Stepped trace r) (i : Nat) :
    (prev^[i] r).time ≤ r.time := by
  induction i with
  | zero => exact Micros.le_iff.mpr (Nat.le_refl _)
  | succ i ih =>
    have back := prev_time_le (stepped.moved (moved_prev_iterate .refl i))
    rw [Function.iterate_succ_apply']
    rw [Micros.le_iff] at *
    omega

theorem time_prev_iterate (stepped : Stepped trace r) (ended : r.time = trace.totalDuration)
    (i : Nat) : (prev^[i] r).time = (trace.totalDuration :: behind trace)[i]?.getD .zero := by
  refine time_of_walk Micros.lt_asymm (pairwise_behind trace) (fun s _ => Micros.not_lt_zero s)
    (f := fun i => (prev^[i] r).time) ended ?_ i
  intro i
  have le := time_prev_iterate_le stepped i
  rw [ended] at le
  rw [Function.iterate_succ_apply', prev_time (stepped.moved (moved_prev_iterate .refl i)),
    find?_behind le]

theorem time_prev_iterate_of_many (stepped : Stepped trace r)
    (ended : r.time = trace.totalDuration) {m : Nat} (many : trace.starts.length < m) :
    (prev^[m] r).time = .zero := by
  have few := length_behind_le trace
  rw [time_prev_iterate stepped ended, List.getElem?_eq_none (by rw [List.length_cons]; omega)]
  rfl

theorem progress_prev_iterate (stepped : Stepped trace r) (ended : r.time = trace.totalDuration)
    {m : Nat} (many : trace.starts.length < m) : (prev^[m] r).progress = .zero := by
  obtain ⟨k, rfl⟩ : ∃ k, m = k + 1 := ⟨m - 1, by omega⟩
  have few := length_behind_le trace
  have le := time_prev_iterate_le stepped k
  rw [ended] at le
  rw [Function.iterate_succ_apply']
  refine prev_progress (stepped.moved (moved_prev_iterate .refl k)) ?_
  rw [find?_behind le, time_prev_iterate stepped ended,
    find?_of_walk Micros.lt_asymm (pairwise_behind trace) fun s _ => Micros.not_lt_zero s]
  exact List.getElem?_eq_none (by omega)

theorem le_totalDuration_of_mem_ahead :
    ∀ s ∈ .zero :: ahead trace, s < trace.totalDuration ∨ s = trace.totalDuration := by
  intro s member
  have le : s ≤ trace.totalDuration := by
    rcases List.mem_cons.mp member with rfl | start
    · exact Micros.le_iff.mpr (Nat.zero_le _)
    · exact Trace.le_totalDuration_of_mem_starts (List.mem_filter.mp start).1
  rw [Micros.le_iff] at le
  rw [Micros.lt_iff, Micros.eq_iff]
  omega

/-- Either walk stops at zero, at the start times and at the end. -/
theorem stops_iff {t : Micros} :
    t = trace.totalDuration ∨ t ∈ behind trace ∨ t = .zero
      ↔ t = .zero ∨ t ∈ ahead trace ∨ t = trace.totalDuration := by
  unfold ahead behind
  simp only [List.mem_reverse, List.mem_filter, decide_eq_true_eq]
  constructor
  · rintro (ended | ⟨start, -⟩ | fresh)
    · exact .inr (.inr ended)
    · rcases Micros.zero_lt_or_eq t with above | fresh
      · exact .inr (.inl ⟨start, above⟩)
      · exact .inl fresh
    · exact .inl fresh
  · rintro (fresh | ⟨start, above⟩ | ended)
    · exact .inr (.inr fresh)
    · have member : t ∈ ahead trace := List.mem_filter.mpr ⟨start, by simpa using above⟩
      rcases le_totalDuration_of_mem_ahead t (List.mem_cons_of_mem _ member) with before | ended
      · exact .inr (.inl ⟨start, before⟩)
      · exact .inl ended
    · exact .inl ended

/-- The way back is the way there: both are sorted, and stop at the same times. -/
theorem retraces (trace : Trace) {n m : Nat} (forth : trace.starts.length < n)
    (back : trace.starts.length < m) :
    (dropRepeats ((List.range (m + 1)).map
        fun i => (trace.totalDuration :: behind trace)[i]?.getD .zero)).reverse
      = dropRepeats ((List.range (n + 1)).map
        fun i => (.zero :: ahead trace)[i]?.getD trace.totalDuration) := by
  have few := length_ahead_le trace
  have few' := length_behind_le trace
  have irrefl : Std.Irrefl fun a b : Micros => a < b := ⟨fun a self => Micros.lt_asymm self self⟩
  have antisymm : Std.Antisymm fun a b : Micros => a < b :=
    ⟨fun a b lt gt => absurd gt (Micros.lt_asymm lt)⟩
  refine List.Pairwise.eq_of_mem_iff (r := fun a b : Micros => a < b) ?_ ?_ ?_
  · rw [List.pairwise_reverse]
    exact pairwise_of_walk Micros.lt_asymm (pairwise_behind trace) (fun s _ => Micros.zero_lt_or_eq s)
      (by rw [List.length_cons]; omega)
  · exact pairwise_of_walk Micros.lt_asymm (pairwise_ahead trace) le_totalDuration_of_mem_ahead
      (by rw [List.length_cons]; omega)
  · intro t
    rw [List.mem_reverse, mem_of_walk (by rw [List.length_cons]; omega),
      mem_of_walk (by rw [List.length_cons]; omega)]
    exact stops_iff

/-! ## Positions -/

theorem reachedSteps_eq (stepped : Stepped trace r) :
    r.reachedSteps = trace.starts.countP fun s => s ≤ r.time := by
  unfold reachedSteps
  rw [stepped.steps_eq]
  exact length_takeWhile_of_sorted trace.pairwise_starts r.time

/-! ## Frames -/

/-- The frames go on to the first step at which the end is reached, however many are allowed. -/
theorem framesFrom_eq (width : Nat) {f : Timeline} {n count : Nat} (enough : n < count)
    (before : ∀ i < n, (next^[i] f).time < (next^[i] f).total)
    (ended : (next^[n] f).total ≤ (next^[n] f).time) :
    framesFrom width count f = (List.range (n + 1)).map fun i => (next^[i] f).frame width := by
  induction n generalizing f count with
  | zero =>
    obtain ⟨count, rfl⟩ : ∃ k, count = k + 1 := ⟨count - 1, by omega⟩
    have ended : f.total ≤ f.time := ended
    rw [framesFrom, if_pos ended]
    rfl
  | succ n ih =>
    obtain ⟨count, rfl⟩ : ∃ k, count = k + 1 := ⟨count - 1, by omega⟩
    have first : ¬f.total ≤ f.time := by
      have lt := before 0 (Nat.succ_pos n)
      rw [Micros.le_iff]
      exact Nat.not_le.mpr (Micros.lt_iff.mp lt)
    rw [framesFrom, if_neg first, List.range_succ_eq_map, List.map_cons, List.map_map]
    refine congrArg (f.frame width :: ·) ?_
    exact ih (f := f.next) (Nat.lt_of_succ_lt_succ enough)
      (fun i lt => before (i + 1) (Nat.succ_lt_succ lt)) ended

/-- Stepping forward from zero, there is a first step at the end. -/
theorem exists_first_end (stepped : Stepped trace r) (fresh : r.time = .zero) :
    ∃ n ≤ trace.starts.length + 1, (next^[n] r).time = trace.totalDuration ∧
      ∀ i < n, (next^[i] r).time < trace.totalDuration := by
  have late := time_next_iterate_of_many stepped fresh (Nat.lt_succ_self trace.starts.length)
  have ends : ∃ n, (next^[n] r).time = trace.totalDuration := ⟨_, late⟩
  refine ⟨Nat.find ends, Nat.find_min' ends late, Nat.find_spec ends, ?_⟩
  intro i lt
  have notYet := Nat.find_min ends lt
  rw [time_next_iterate stepped fresh] at notYet ⊢
  cases at_i : (Micros.zero :: ahead trace)[i]? with
  | none =>
    rw [at_i] at notYet
    exact absurd rfl notYet
  | some s =>
    rw [at_i] at notYet
    exact (le_totalDuration_of_mem_ahead s (List.mem_of_getElem? at_i)).resolve_right notYet

/-! ## Stepping -/

/-- From a fresh timeline, steps forward stop at the start times above zero, in order, and then at
the end, where the progress is one; steps back stop at the start times before the end, in the
opposite order, and then at zero, where the progress is zero.  So the way back is the way there.  The
two positions are next to each other where some of the start times have been reached and others have
not.  The frames of a trace are those of the steps up to the first one at the end, which is at most
one more than there are start times; their times are strictly increasing. -/
theorem stepping_visits_starts {view : ν} (ok : start trace view = .ok r₀) :
    trace.starts.Pairwise (· < ·) ∧ (∀ t, t ∈ trace.starts ↔ ∃ c ∈ trace.calls, c.time = t) ∧
    (∀ i, (next^[i] r₀).time
      = (.zero :: trace.starts.filter (.zero < ·))[i]?.getD trace.totalDuration) ∧
    (∀ n, trace.starts.length < n →
      (next^[n] r₀).progress = .one ∧ (next^[n] r₀).time = trace.totalDuration ∧
      (∀ i, (prev^[i] (next^[n] r₀)).time
        = (trace.totalDuration
            :: (trace.starts.filter (· < trace.totalDuration)).reverse)[i]?.getD .zero) ∧
      ∀ m, trace.starts.length < m →
        (prev^[m] (next^[n] r₀)).progress = .zero ∧ (prev^[m] (next^[n] r₀)).time = .zero ∧
        (dropRepeats ((List.range (m + 1)).map fun i => (prev^[i] (next^[n] r₀)).time)).reverse
          = dropRepeats ((List.range (n + 1)).map fun i => (next^[i] r₀).time)) ∧
    (∀ s, r₀.Moved s → ∀ reached, reached = trace.starts.countP (· ≤ s.time) →
      s.position = min reached (trace.starts.length - 1) ∧ s.altPosition = reached - 1 ∧
      (s.position = s.altPosition + 1 ∨ s.altPosition = s.position + 1
        ↔ 1 ≤ reached ∧ reached < trace.starts.length)) ∧
    ∀ (canvas : Canvas) (f₀ : Timeline) (width : Nat), start trace canvas = .ok f₀ →
      ∃ n ≤ trace.starts.length + 1,
        f₀.frames width = (List.range (n + 1)).map (fun i => (next^[i] f₀).frame width) ∧
        (∀ count, n < count → framesFrom width count f₀ = f₀.frames width) ∧
        (next^[n] f₀).time = trace.totalDuration ∧
        ∀ i < n, (next^[i] f₀).time < (next^[i + 1] f₀).time := by
  have stepped := stepped_of_start ok
  have fresh := time_of_start ok
  refine ⟨trace.pairwise_starts, fun t => Trace.mem_starts, time_next_iterate stepped fresh, ?_,
    ?_, ?_⟩
  · intro n forth
    have ended := time_next_iterate_of_many stepped fresh forth
    have stepped' := stepped.moved (moved_next_iterate .refl n)
    refine ⟨progress_next_iterate stepped fresh forth, ended,
      time_prev_iterate stepped' ended, ?_⟩
    intro m back
    refine ⟨progress_prev_iterate stepped' ended back,
      time_prev_iterate_of_many stepped' ended back, ?_⟩
    simp only [time_next_iterate stepped fresh, time_prev_iterate stepped' ended]
    exact retraces trace forth back
  · rintro s moved reached rfl
    have stepped' := stepped.moved moved
    have bound := List.countP_le_length (p := fun t => decide (t ≤ s.time)) (l := trace.starts)
    unfold position altPosition
    rw [reachedSteps_eq stepped', stepped'.steps_eq]
    refine ⟨rfl, rfl, ?_⟩
    omega
  · intro canvas f₀ width opens
    have stepped' := stepped_of_start opens
    have total : ∀ i, (next^[i] f₀).total = trace.totalDuration :=
      fun i => (stepped'.moved (moved_next_iterate .refl i)).total_eq
    obtain ⟨n, le, ended, before⟩ := exists_first_end stepped' (time_of_start opens)
    have upTo : ∀ count, n < count →
        framesFrom width count f₀ = (List.range (n + 1)).map fun i => (next^[i] f₀).frame width := by
      intro count enough
      refine framesFrom_eq width enough ?_ ?_
      · intro i lt
        rw [total]
        exact before i lt
      · rw [total, ended]
        exact Micros.le_iff.mpr (Nat.le_refl _)
    have frames : f₀.frames width = _ :=
      upTo (f₀.steps.length + 2) (by rw [stepped'.steps_eq]; omega)
    refine ⟨n, le, frames, fun count enough => (upTo count enough).trans frames.symm, ended, ?_⟩
    intro i lt
    rw [Function.iterate_succ_apply']
    exact lt_next_time (stepped'.moved (moved_next_iterate .refl i)) (before i lt)

/-- Three start times, the last of which is before the end. -/
theorem stepping_visits_starts_of_highlightedBlock :
    ∃ r₀ : Timeline Canvas, start highlightedBlock (Canvas.blank 4) = .ok r₀ ∧
      (next^[4] r₀).progress = .one ∧ (prev^[4] (next^[4] r₀)).progress = .zero ∧
      (next^[2] r₀).time = ⟨3⟩ := by
  obtain ⟨r₀, ok⟩ : ∃ r₀ : Timeline Canvas, start highlightedBlock (Canvas.blank 4) = .ok r₀ :=
    ⟨_, rfl⟩
  obtain ⟨-, -, forward, backward, -, -⟩ := stepping_visits_starts ok
  obtain ⟨one, -, -, back⟩ := backward 4 (by decide)
  exact ⟨r₀, ok, one, (back 4 (by decide)).1, forward 2⟩

end Timeline

end Heapscope
