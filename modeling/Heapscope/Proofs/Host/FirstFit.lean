import Heapscope.Host.FirstFit
import Heapscope.Proofs.Memory.Windows

/-!
# What a first-fit allocator does

A first-fit allocator without a script takes the lowest window of free bytes, or says that there is
none.  The lowest window is defined without a search (`Window.Least`), and so is what one call
changes.

* `FirstFit.search_eq_some_iff`, `FirstFit.search_eq_none_iff` -- what the search finds;
* `FirstFit.malloc_of_search_some`, `FirstFit.malloc_of_search_none` -- one allocation;
* `FirstFit.free_of_find_some`, `FirstFit.free_of_find_none` -- one release.
-/

namespace Heapscope

namespace FirstFit

/-- A byte is marked as used. -/
def Uses (s : FirstFit) (b : Nat) : Prop := s.used b = true

/-! ## The search -/

theorem freeSpan_iff {used : Nat → Bool} {start size : Nat} :
    freeSpan used start size = true ↔ Window.Free (used · = true) start size := by
  induction size generalizing start with
  | zero =>
    simp only [freeSpan, true_iff]
    exact Window.free_zero start
  | succ size ih =>
    simp only [freeSpan, Bool.and_eq_true, Bool.not_eq_true', ih]
    rw [Window.free_succ_iff, Bool.not_eq_true]

/-- The search among some addresses finds the first that begins a free window. -/
theorem searchFrom_eq_some_iff {used : Nat → Bool} {size start count found : Nat} :
    searchFrom used size start count = some found ↔
      start ≤ found ∧ found < start + count ∧ Window.Free (used · = true) found size ∧
        ∀ a, start ≤ a → a < found → ¬Window.Free (used · = true) a size := by
  induction count generalizing start with
  | zero =>
    simp only [searchFrom, reduceCtorEq, false_iff]
    omega
  | succ count ih =>
    rw [searchFrom]
    by_cases free : freeSpan used start size = true
    · rw [if_pos free, Option.some.injEq]
      have here := freeSpan_iff.mp free
      constructor
      · rintro rfl
        exact ⟨Nat.le_refl _, by omega, here, by omega⟩
      · rintro ⟨le, -, -, least⟩
        by_contra ne
        exact least start (Nat.le_refl _) (by omega) here
    · rw [if_neg free, ih]
      have taken : ¬Window.Free (used · = true) start size := fun h => free (freeSpan_iff.mpr h)
      constructor
      · rintro ⟨le, lt, found_free, least⟩
        refine ⟨by omega, by omega, found_free, ?_⟩
        intro a hle hlt
        rcases Nat.eq_or_lt_of_le hle with rfl | later
        · exact taken
        · exact least a later hlt
      · rintro ⟨le, lt, found_free, least⟩
        have ne : start ≠ found := by
          rintro rfl
          exact taken found_free
        exact ⟨by omega, by omega, found_free, fun a hle hlt => least a (by omega) hlt⟩

theorem searchFrom_eq_none_iff {used : Nat → Bool} {size start count : Nat} :
    searchFrom used size start count = none ↔
      ∀ a, start ≤ a → a < start + count → ¬Window.Free (used · = true) a size := by
  induction count generalizing start with
  | zero =>
    simp only [searchFrom, true_iff]
    omega
  | succ count ih =>
    rw [searchFrom]
    by_cases free : freeSpan used start size = true
    · rw [if_pos free]
      simp only [reduceCtorEq, false_iff, not_forall, not_not]
      exact ⟨start, Nat.le_refl _, by omega, freeSpan_iff.mp free⟩
    · rw [if_neg free, ih]
      constructor
      · intro rest a hle hlt
        rcases Nat.eq_or_lt_of_le hle with rfl | later
        · exact fun h => free (freeSpan_iff.mpr h)
        · exact rest a later (by omega)
      · intro all a hle hlt
        exact all a (by omega) (by omega)

variable {s : FirstFit} {size : UInt32}

/-- The search finds the lowest window of free bytes. -/
theorem search_eq_some_iff {n start : Nat} :
    s.search n = some start ↔ n ≠ 0 ∧ Window.Least s.Uses s.capacity.toNat n start := by
  unfold search
  simp only
  split
  · rename_i refused
    simp only [reduceCtorEq, false_iff]
    rintro ⟨positive, least⟩
    have fits := least.fits
    omega
  · rename_i accepted
    rw [searchFrom_eq_some_iff]
    constructor
    · rintro ⟨-, lt, free, least⟩
      exact ⟨by omega, by omega, free, fun a lt => least a (Nat.zero_le a) lt⟩
    · rintro ⟨-, fits, free, least⟩
      exact ⟨Nat.zero_le _, by omega, free, fun a _ lt => least a lt⟩

/-- The search fails for empty blocks, and where no window is free. -/
theorem search_eq_none_iff {n : Nat} :
    s.search n = none ↔ n = 0 ∨ Window.Full s.Uses s.capacity.toNat n := by
  unfold search
  simp only
  split
  · rename_i refused
    simp only [true_iff]
    refine refused.imp_right ?_
    intro large a fits
    omega
  · rename_i accepted
    rw [searchFrom_eq_none_iff]
    constructor
    · intro none_free
      exact .inr fun a fits => none_free a (Nat.zero_le a) (by omega)
    · rintro (zero | full) a - lt
      · omega
      · exact full a (by omega)

/-! ## One call -/

theorem fill_zero (value : Bool) (used : Nat → Bool) (start : Nat) :
    fill value used start 0 = used := by
  funext p
  unfold fill
  rw [if_neg (by omega)]

/-- The note that highlights a block. -/
def highlight (address size : UInt32) : Note :=
  { Note.bare (.add .range) address with size := some size }

/-- The annotations that an allocator queues for what it did. -/
def emitted (s : FirstFit) (note : Note) : List Note := if s.annotating then [note] else []

@[simp] theorem report_used (note : Note) (level : LogLevel) (message : String) :
    (s.report note level message).used = s.used := by
  unfold report
  split <;> rfl

@[simp] theorem report_sizes (note : Note) (level : LogLevel) (message : String) :
    (s.report note level message).sizes = s.sizes := by
  unfold report
  split <;> rfl

@[simp] theorem report_capacity (note : Note) (level : LogLevel) (message : String) :
    (s.report note level message).capacity = s.capacity := by
  unfold report
  split <;> rfl

@[simp] theorem report_script (note : Note) (level : LogLevel) (message : String) :
    (s.report note level message).script = s.script := by
  unfold report
  split <;> rfl

@[simp] theorem report_hasFree (note : Note) (level : LogLevel) (message : String) :
    (s.report note level message).hasFree = s.hasFree := by
  unfold report
  split <;> rfl

@[simp] theorem report_notes (note : Note) (level : LogLevel) (message : String) :
    (s.report note level message).notes = s.notes ++ s.emitted note := by
  unfold report emitted
  split
  · rfl
  · exact (List.append_nil _).symm

/-- What a call leaves as it was: an allocator that answers by itself and releases blocks. -/
structure Plain (capacity : UInt32) (s : FirstFit) : Prop where
  capacity_eq : s.capacity = capacity
  script_eq : s.script = []
  hasFree_eq : s.hasFree = true

/-- An allocation by search: what it finds is taken into use, entered in the table and reported. -/
theorem malloc_of_search_some {capacity : UInt32} (plain : s.Plain capacity) {start : Nat}
    (found : s.search size.toNat = some start) :
    (malloc size s).1 = .ok (Int64.ofNat start) ∧ (malloc size s).2.Plain capacity ∧
      (malloc size s).2.used = fill true s.used start size.toNat ∧
      (malloc size s).2.sizes = s.sizes.insert (UInt32.ofNat start) size ∧
      (malloc size s).2.notes = s.notes ++ s.emitted (highlight (UInt32.ofNat start) size) := by
  unfold malloc
  simp only [plain.script_eq]
  split
  · rename_i none_found
    cases none_found.symm.trans found
  · rename_i start' found'
    cases found'.symm.trans found
    simp only [report_used, report_sizes, report_notes, true_and]
    exact ⟨⟨(report_capacity ..).trans plain.capacity_eq, report_script .., (report_hasFree ..).trans
      plain.hasFree_eq⟩, rfl⟩

/-- An allocation that finds no window changes nothing but the record of calls. -/
theorem malloc_of_search_none {capacity : UInt32} (plain : s.Plain capacity)
    (none_found : s.search size.toNat = none) :
    (malloc size s).1 = .ok (-1) ∧ (malloc size s).2.Plain capacity ∧
      (malloc size s).2.used = s.used ∧ (malloc size s).2.sizes = s.sizes ∧
      (malloc size s).2.notes = s.notes := by
  unfold malloc
  simp only [plain.script_eq]
  split
  · exact ⟨rfl, ⟨plain.capacity_eq, rfl, plain.hasFree_eq⟩, rfl, rfl, rfl⟩
  · rename_i start found
    cases found.symm.trans none_found

/-- The release of a block that the table knows: it is given back and reported. -/
theorem free_of_find_some {capacity address : UInt32} (plain : s.Plain capacity)
    (found : s.sizes.find? address = some size) :
    (free address s).1 = .ok () ∧ (free address s).2.Plain capacity ∧
      (free address s).2.used = fill false s.used address.toNat size.toNat ∧
      (free address s).2.sizes = s.sizes.erase address ∧
      (free address s).2.notes = s.notes ++ s.emitted (.bare (.remove .range) address) := by
  unfold free
  rw [if_pos plain.hasFree_eq]
  simp only [found, report_used, report_sizes, report_notes, true_and]
  exact ⟨⟨(report_capacity ..).trans plain.capacity_eq, (report_script ..).trans plain.script_eq,
    (report_hasFree ..).trans plain.hasFree_eq⟩, rfl⟩

/-- The release of an address that is no block's is reported, and changes nothing else. -/
theorem free_of_find_none {capacity address : UInt32} (plain : s.Plain capacity)
    (absent : s.sizes.find? address = none) :
    (free address s).1 = .ok () ∧ (free address s).2.Plain capacity ∧
      (free address s).2.used = s.used ∧ (free address s).2.sizes = s.sizes ∧
      (free address s).2.notes = s.notes ++ s.emitted (.bare (.remove .range) address) := by
  unfold free
  rw [if_pos plain.hasFree_eq]
  simp only [absent, report_used, report_sizes, report_notes, true_and]
  exact ⟨⟨(report_capacity ..).trans plain.capacity_eq, (report_script ..).trans plain.script_eq,
    (report_hasFree ..).trans plain.hasFree_eq⟩, rfl⟩

end FirstFit

end Heapscope
