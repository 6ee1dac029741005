import Heapscope.Proofs.Memory.Requests

/-!
# Runs of bytes in use

The runs of an occupancy list its bytes with as few entries as can be: no run is empty, and behind
each there is a byte that is not in use before the next begins.  So a set of bytes has only one
list of runs, and occupancies can be compared by their runs.

* `Listed`, `Spaced` -- the bytes that runs list, and that no two runs could be one;
* `Spaced.eq_of_listed` -- spaced runs that list the same bytes are the same;
* `Spaced.sum_lengths` -- the lengths of spaced runs add up to the number of their bytes;
* `Occupancy.lists_runs` -- the scan that makes the runs, with the run that is open at each byte;
* `ranges_are_canonical` -- the runs of an occupancy after any requests.
-/

namespace Heapscope

/-! ## Lists of runs -/

/-- A byte is in a run, which is given by its first byte and its length. -/
def InRun (b : Nat) (run : Nat × Nat) : Prop := run.1 ≤ b ∧ b < run.1 + run.2

/-- A byte is in one of some runs. -/
def Listed (runs : List (Nat × Nat)) (b : Nat) : Prop := ∃ run ∈ runs, InRun b run

/-- Runs that are not empty and ascend, each with a byte between its end and the next. -/
structure Spaced (runs : List (Nat × Nat)) : Prop where
  positive : ∀ run ∈ runs, 0 < run.2
  apart : runs.Pairwise fun run later => run.1 + run.2 < later.1

section

variable {first length b : Nat} {runs runs' : List (Nat × Nat)}

theorem not_listed_nil (b : Nat) : ¬Listed [] b := by
  rintro ⟨run, member, -⟩
  cases member

theorem listed_cons_iff :
    Listed ((first, length) :: runs) b ↔ (first ≤ b ∧ b < first + length) ∨ Listed runs b := by
  constructor
  · rintro ⟨run, member, inRun⟩
    rcases List.mem_cons.mp member with rfl | later
    · exact .inl inRun
    · exact .inr ⟨run, later, inRun⟩
  · rintro (inRun | ⟨run, later, inRun⟩)
    · exact ⟨_, List.mem_cons_self, inRun⟩
    · exact ⟨run, List.mem_cons_of_mem _ later, inRun⟩

namespace Spaced

theorem nil : Spaced [] where
  positive := by simp
  apart := .nil

theorem cons (spaced : Spaced runs) (positive : 0 < length)
    (apart : ∀ later ∈ runs, first + length < later.1) : Spaced ((first, length) :: runs) where
  positive := List.forall_mem_cons.mpr ⟨positive, spaced.positive⟩
  apart := List.pairwise_cons.mpr ⟨apart, spaced.apart⟩

theorem tail (spaced : Spaced ((first, length) :: runs)) : Spaced runs where
  positive := (List.forall_mem_cons.mp spaced.positive).2
  apart := (List.pairwise_cons.mp spaced.apart).2

theorem first_listed (spaced : Spaced ((first, length) :: runs)) :
    Listed ((first, length) :: runs) first := by
  have positive : 0 < length := spaced.positive _ List.mem_cons_self
  rw [listed_cons_iff]
  omega

/-- What the later runs list is what is listed behind the first. -/
theorem listed_tail_iff (spaced : Spaced ((first, length) :: runs)) :
    Listed runs b ↔ first + length < b ∧ Listed ((first, length) :: runs) b := by
  rw [listed_cons_iff]
  constructor
  · rintro ⟨run, later, le, lt⟩
    have behind := (List.pairwise_cons.mp spaced.apart).1 run later
    exact ⟨Nat.lt_of_lt_of_le behind le, .inr ⟨run, later, le, lt⟩⟩
  · rintro ⟨behind, inFirst | later⟩
    · omega
    · exact later

theorem first_le (spaced : Spaced ((first, length) :: runs))
    (listed : Listed ((first, length) :: runs) b) : first ≤ b := by
  rcases listed_cons_iff.mp listed with inFirst | later
  · exact inFirst.1
  · have behind := (spaced.listed_tail_iff.mp later).1
    omega

/-- A run ends where it does because the next byte is not listed. -/
theorem not_listed_stop (spaced : Spaced ((first, length) :: runs)) :
    ¬Listed ((first, length) :: runs) (first + length) := by
  intro listed
  rcases listed_cons_iff.mp listed with inFirst | later
  · omega
  · have behind := (spaced.listed_tail_iff.mp later).1
    omega

theorem length_le {length' : Nat} {others : List (Nat × Nat)}
    (spaced : Spaced ((first, length) :: runs))
    (listed : ∀ b, Listed ((first, length') :: others) b → Listed ((first, length) :: runs) b) :
    length' ≤ length := by
  by_contra longer
  refine spaced.not_listed_stop (listed _ ?_)
  rw [listed_cons_iff]
  omega

/-- By induction on the runs: the first runs begin at the least byte that is listed and end at the
first that is not, and the later ones list the bytes behind. -/
theorem eq_of_listed (spaced : Spaced runs) (spaced' : Spaced runs')
    (same : ∀ b, Listed runs b ↔ Listed runs' b) : runs = runs' := by
  induction runs generalizing runs' with
  | nil =>
    cases runs' with
    | nil => rfl
    | cons run' rest' => exact absurd ((same _).mpr spaced'.first_listed) (not_listed_nil _)
  | cons run rest ih =>
    obtain ⟨first, length⟩ := run
    cases runs' with
    | nil => exact absurd ((same _).mp spaced.first_listed) (not_listed_nil _)
    | cons run' rest' =>
      obtain ⟨first', length'⟩ := run'
      have firsts : first = first' := by
        have le := spaced.first_le ((same first').mpr spaced'.first_listed)
        have ge := spaced'.first_le ((same first).mp spaced.first_listed)
        omega
      subst firsts
      have lengths : length = length' := by
        have le := spaced'.length_le fun b => (same b).mp
        have ge := spaced.length_le fun b => (same b).mpr
        omega
      subst lengths
      have rests : rest = rest' := by
        refine ih spaced.tail spaced'.tail ?_
        intro b
        rw [spaced.listed_tail_iff, spaced'.listed_tail_iff, same]
      rw [rests]

/-- By induction on the runs: the bytes behind the first run are those of the later runs. -/
theorem sum_lengths (spaced : Spaced runs) {bytes : Finset Nat}
    (listed : ∀ b, b ∈ bytes ↔ Listed runs b) : (runs.map Prod.snd).sum = bytes.card := by
  induction runs generalizing bytes with
  | nil =>
    have none_listed : bytes = ∅ := by
      ext b
      simp [listed, not_listed_nil]
    rw [none_listed]
    rfl
  | cons run rest ih =>
    obtain ⟨first, length⟩ := run
    have own : bytes.filter (fun b => ¬first + length < b) = Finset.Ico first (first + length) := by
      ext b
      rw [Finset.mem_filter, Finset.mem_Ico, listed]
      constructor
      · rintro ⟨held, before⟩
        rcases listed_cons_iff.mp held with inFirst | later
        · exact inFirst
        · exact absurd (spaced.listed_tail_iff.mp later).1 before
      · intro inFirst
        exact ⟨listed_cons_iff.mpr (.inl inFirst), by omega⟩
    have later : (rest.map Prod.snd).sum = (bytes.filter fun b => first + length < b).card := by
      refine ih spaced.tail ?_
      intro b
      rw [Finset.mem_filter, listed, spaced.listed_tail_iff, and_comm]
    have split := Finset.card_filter_add_card_filter_not (s := bytes) fun b => first + length < b
    rw [own, Nat.card_Ico, ← later] at split
    rw [List.map_cons, List.sum_cons]
    omega

end Spaced

end

namespace Occupancy

/-! ## The scan -/

variable {words : Array UInt64} {first address stop : Nat} {runs : List (Nat × Nat)}

/-- Spaced runs that list the bytes in use from `first` on and before `stop`. -/
structure Lists (words : Array UInt64) (first stop : Nat) (runs : List (Nat × Nat)) : Prop where
  spaced : Spaced runs
  from_first : ∀ run ∈ runs, first ≤ run.1
  to_stop : ∀ run ∈ runs, run.1 + run.2 ≤ stop
  listed_iff : ∀ b, Listed runs b ↔ (first ≤ b ∧ b < stop) ∧ testBit words b = true

/-- The run that is open before a byte: all bytes since it began are in use. -/
def Open (words : Array UInt64) (address : Nat) : Option Nat → Prop
  | none => True
  | some first => first < address ∧ ∀ b, first ≤ b → b < address → testBit words b = true

namespace Lists

theorem nil (words : Array UInt64) (stop : Nat) : Lists words stop stop [] where
  spaced := .nil
  from_first := by simp
  to_stop := by simp
  listed_iff b := by
    refine iff_of_false (not_listed_nil b) ?_
    omega

/-- A byte that is not in use is in no run. -/
theorem skip (lists : Lists words (address + 1) stop runs)
    (unused : testBit words address = false) : Lists words address stop runs where
  spaced := lists.spaced
  from_first run member := Nat.le_of_succ_le (lists.from_first run member)
  to_stop := lists.to_stop
  listed_iff b := by
    rw [lists.listed_iff]
    constructor
    · rintro ⟨⟨le, lt⟩, used⟩
      exact ⟨⟨by omega, lt⟩, used⟩
    · rintro ⟨⟨le, lt⟩, used⟩
      have ne : b ≠ address := by
        rintro rfl
        rw [unused] at used
        cases used
      exact ⟨⟨by omega, lt⟩, used⟩

/-- The open run ends, and the runs behind it do not touch it. -/
theorem close (lists : Lists words address stop runs) (le : address ≤ stop)
    (apart : ∀ later ∈ runs, address < later.1) (opened : Open words address (some first)) :
    Lists words first stop ((first, address - first) :: runs) := by
  obtain ⟨before, used⟩ := opened
  have length : first + (address - first) = address := by omega
  refine ⟨?spaced, ?from_first, ?to_stop, ?listed⟩
  case spaced =>
    refine lists.spaced.cons (by omega) ?_
    rw [length]
    exact apart
  case from_first =>
    refine List.forall_mem_cons.mpr ⟨Nat.le_refl first, ?_⟩
    intro later member
    have behind := apart later member
    omega
  case to_stop => exact List.forall_mem_cons.mpr ⟨length.trans_le le, lists.to_stop⟩
  case listed =>
    intro b
    rw [listed_cons_iff, lists.listed_iff, length]
    constructor
    · rintro (⟨from_first, to_address⟩ | ⟨⟨from_address, to_stop⟩, held⟩)
      · exact ⟨⟨from_first, by omega⟩, used b from_first to_address⟩
      · exact ⟨⟨by omega, to_stop⟩, held⟩
    · rintro ⟨⟨from_first, to_stop⟩, held⟩
      by_cases inRun : b < address
      · exact .inl ⟨from_first, inRun⟩
      · exact .inr ⟨⟨by omega, to_stop⟩, held⟩

end Lists

theorem Open.begin (used : testBit words address = true) :
    Open words (address + 1) (some address) := by
  refine ⟨Nat.lt_succ_self address, ?_⟩
  intro b le lt
  have only : b = address := by omega
  rw [only]
  exact used

theorem Open.extend (opened : Open words address (some first))
    (used : testBit words address = true) : Open words (address + 1) (some first) := by
  obtain ⟨before, used_before⟩ := opened
  refine ⟨Nat.lt_succ_of_lt before, ?_⟩
  intro b le lt
  rcases Nat.lt_or_eq_of_le (Nat.le_of_lt_succ lt) with earlier | rfl
  · exact used_before b le earlier
  · exact used

/-- The scan lists the bytes in use from where the open run began.  By induction on the bytes to
come, along the cases of the scan: a byte is in use or not, and a run is open or not. -/
theorem lists_runs {start : Option Nat} (count : Nat) (opened : Open words address start) :
    Lists words (start.getD address) (address + count)
      (Occupancy.runs words start address count) := by
  induction count generalizing start address with
  | zero =>
    cases start with
    | none => exact .nil words address
    | some first =>
      have rest := Lists.nil words address
      exact rest.close (Nat.le_refl address) (by simp) opened
  | succ count ih =>
    have shift : address + (count + 1) = address + 1 + count := by omega
    rw [shift]
    cases bit : testBit words address with
    | false =>
      have rest : Lists words (address + 1) (address + 1 + count)
          (Occupancy.runs words none (address + 1) count) := @ih (address + 1) none trivial
      cases start with
      | none =>
        simp only [Occupancy.runs, bit]
        exact rest.skip bit
      | some first =>
        simp only [Occupancy.runs, bit]
        exact (rest.skip bit).close (by omega) rest.from_first opened
    | true =>
      cases start with
      | none =>
        simp only [Occupancy.runs, bit]
        exact ih (Open.begin bit)
      | some first =>
        simp only [Occupancy.runs, bit]
        exact ih (opened.extend bit)

/-! ## The runs of an occupancy -/

theorem lists_ranges (o : Occupancy) : Lists o.words 0 o.capacity.toNat o.ranges := by
  have closed : Open o.words 0 none := trivial
  have lists := lists_runs o.capacity.toNat closed
  rw [Nat.zero_add] at lists
  exact lists

/-- The runs list the bytes in use. -/
theorem listed_ranges_iff {o : Occupancy} {b : Nat} : Listed o.ranges b ↔ o.Holds b := by
  rw [o.lists_ranges.listed_iff]
  unfold Holds
  simp

theorem holds_iff_exists_isMarked {o : Occupancy} {b : Nat} :
    o.Holds b ↔ ∃ a : UInt32, a.toNat = b ∧ o.isMarked a = true := by
  constructor
  · intro held
    have value : (UInt32.ofNat b).toNat = b :=
      UInt32.toNat_ofNat_of_lt' (Nat.lt_trans held.1 o.capacity.toNat_lt)
    exact ⟨UInt32.ofNat b, value, isMarked_iff.mpr (value.symm ▸ held)⟩
  · rintro ⟨a, rfl, marked⟩
    exact isMarked_iff.mp marked

/-- Occupancies have the same runs when the same bytes are in use. -/
theorem ranges_eq_iff {o o' : Occupancy} :
    o.ranges = o'.ranges ↔ ∀ b, o.isMarked b = o'.isMarked b := by
  constructor
  · intro same b
    rw [Bool.eq_iff_iff, isMarked_iff, isMarked_iff, ← listed_ranges_iff, ← listed_ranges_iff, same]
  · intro same
    refine o.lists_ranges.spaced.eq_of_listed o'.lists_ranges.spaced ?_
    intro b
    rw [listed_ranges_iff, listed_ranges_iff, holds_iff_exists_isMarked, holds_iff_exists_isMarked]
    simp only [same]

end Occupancy

/-- Whatever was asked of an address space, its runs are not empty, lie inside it, ascend with a
byte between each two, hold the bytes in use and no others, and have as many bytes together as are
counted.  So two address spaces of one capacity have the same runs exactly when the same bytes are
in use. -/
theorem ranges_are_canonical (capacity : UInt32) (requests : List Request) :
    let o := (Occupancy.empty capacity).after requests
    (∀ run ∈ o.ranges, 0 < run.2 ∧ run.1 + run.2 ≤ capacity.toNat) ∧
    o.ranges.Pairwise (fun run later => run.1 + run.2 < later.1) ∧
    (∀ b : UInt32, o.isMarked b = true ↔
      ∃ run ∈ o.ranges, run.1 ≤ b.toNat ∧ b.toNat < run.1 + run.2) ∧
    (o.ranges.map Prod.snd).sum = o.occupied ∧
    ∀ others, o.ranges = ((Occupancy.empty capacity).after others).ranges ↔
      ∀ b, o.isMarked b = ((Occupancy.empty capacity).after others).isMarked b := by
  intro o
  have rep := Occupancy.represents_after capacity requests
  have lists := o.lists_ranges
  refine ⟨?inside, lists.spaced.apart, ?listed, ?counted, fun _ => Occupancy.ranges_eq_iff⟩
  case inside =>
    intro run member
    exact ⟨lists.spaced.positive run member, rep.capacity_eq ▸ lists.to_stop run member⟩
  case listed =>
    intro b
    rw [Occupancy.isMarked_iff, ← Occupancy.listed_ranges_iff]
    rfl
  case counted =>
    rw [rep.occupied_eq]
    refine lists.spaced.sum_lengths ?_
    intro b
    rw [Occupancy.listed_ranges_iff, rep.holds_iff]

/-- Two spans, of which each reaches over the end of a word. -/
example : ((Occupancy.empty 200).after [.mark 60 10, .mark 120 80]).ranges
    = [(60, 10), (120, 80)] := by
  decide +kernel

end Heapscope
