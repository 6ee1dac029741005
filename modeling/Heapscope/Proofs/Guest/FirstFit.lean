import Heapscope.Guest.Allocators
import Heapscope.Proofs.Guest.Memory
import Heapscope.Proofs.Host.FirstFit
import Heapscope.Proofs.OrderedMap
import Heapscope.Proofs.Run.Lockstep
import Heapscope.Proofs.Run.Silence

/-!
# First fit as a guest

The first-fit guest looks at each byte once: it counts the free bytes behind the last used one, and
begins anew behind each used one.  The first-fit allocator of `Host.FirstFit` tries every window.
They find the same, and the guest's memory keeps what the other keeps in its map and its table, as
long as the table begins behind the map and ends with the second page.

* `Guest.Scan` -- what the guest knows while it counts; `Guest.run_firstFitFrom` -- so it takes what
  a search finds;
* `Guest.Keeps` -- memory that keeps the state of a first-fit allocator;
* `Guest.lockstep` -- the two are in lockstep;
* `firstFit_guest_agrees` -- so a run cannot tell them apart.
-/

namespace Heapscope

namespace Guest

/-! ## The scan -/

/-- What a scan for `n` free bytes knows at byte `i`: the `run` bytes from `first` on are free, and
no window that begins earlier is. -/
structure Scan (used : Nat → Prop) (n i first run : Nat) : Prop where
  reached : first + run = i
  short : run < n
  free : Window.Free used first run
  passed : ∀ a, a < first → ¬Window.Free used a n

namespace Scan

variable {used : Nat → Prop} {capacity n i first run : Nat}

theorem start (positive : 0 < n) : Scan used n 0 0 0 :=
  ⟨rfl, positive, Window.free_zero 0, fun _ lt => absurd lt (Nat.not_lt_zero _)⟩

/-- A used byte spoils all windows that begin before it or there. -/
theorem of_used (scan : Scan used n i first run) (held : used i) :
    Scan used n (i + 1) (i + 1) 0 := by
  have reached := scan.reached
  have short := scan.short
  refine ⟨rfl, by omega, Window.free_zero _, fun a lt => ?_⟩
  rcases Nat.lt_or_ge a first with early | late
  · exact scan.passed a early
  · exact Window.not_free_of_used (by omega) (by omega) held

theorem free_succ (scan : Scan used n i first run) (notHeld : ¬used i) :
    Window.Free used first (run + 1) := by
  have reached := scan.reached
  intro b le lt
  rcases Nat.lt_or_ge b i with before | behind
  · exact scan.free b le (by omega)
  · have here : b = i := by omega
    rw [here]
    exact notHeld

theorem of_free (scan : Scan used n i first run) (notHeld : ¬used i) (short : run + 1 < n) :
    Scan used n (i + 1) first (run + 1) :=
  ⟨by rw [← scan.reached, Nat.add_assoc], short, scan.free_succ notHeld, scan.passed⟩

/-- The byte that completes a window completes the lowest one. -/
theorem least (scan : Scan used n i first run) (notHeld : ¬used i) (long : run + 1 = n)
    (lies : i < capacity) : Window.Least used capacity n first := by
  have reached := scan.reached
  exact ⟨by omega, long ▸ scan.free_succ notHeld, scan.passed⟩

/-- A scan that comes to the end leaves no window. -/
theorem full (scan : Scan used n capacity first run) : Window.Full used capacity n := by
  have reached := scan.reached
  have short := scan.short
  intro a fits
  exact scan.passed a (by omega)

end Scan

/-! ## Words and slots -/

/-- The greatest number of bytes whose sizes the second page has room for. -/
def slots : Nat := 16384

theorem toNat_sizeSlot {address : UInt32} (small : address.toNat < slots) :
    (sizeSlot address).toNat = 65536 + 4 * address.toNat := by
  have shift : (2 : UInt32).toNat % 32 = 2 := rfl
  have page : (65536 : UInt32).toNat = 65536 := rfl
  unfold slots at small
  unfold sizeSlot
  rw [UInt32.toNat_add, UInt32.toNat_shiftLeft, shift, page, Nat.shiftLeft_eq]
  omega

theorem toInt_toInt32 {w : UInt32} (small : w ≤ wordLimit) : w.toInt32.toInt = w.toNat := by
  have bound : w.toNat ≤ 2147483647 := UInt32.le_iff_toNat_le.mp small
  exact toInt_of_small (show w.toNat < 2 ^ 31 by omega)

theorem size_of_pages {memory : LinearMemory} (pages : memory.pages = 2) :
    memory.size = 131072 := by
  unfold LinearMemory.size
  rw [pages]
  rfl

/-- A span of the first page is filled, and the slot of its first byte is written: the other bytes
of the page stay as they are, and so do the other slots. -/
theorem run_mark {α : Type} (env : Surroundings) {m : Machine} {address size : UInt32}
    (value : UInt8) (w : UInt32) (next : Unit → Code α) (pages : m.memory.pages = 2)
    (lies : address.toNat < slots) (fits : address.toNat + size.toNat ≤ slots) :
    ∃ memory, (do
        Code.fillSpan address size value
        Code.writeWord (sizeSlot address) w
        next () : Code α).run env m = (next ()).run env { m with memory } ∧
      memory.pages = 2 ∧
      (∀ p, p < slots → memory.byte p =
        if address.toNat ≤ p ∧ p < address.toNat + size.toNat then value else m.memory.byte p) ∧
      ∀ other : UInt32, other.toNat < slots → memory.word (sizeSlot other).toNat =
        if other = address then w else m.memory.word (sizeSlot other).toNat := by
  have slot := toNat_sizeSlot lies
  have total : slots = 16384 := rfl
  have inside : address.toNat + size.toNat ≤ m.memory.size := by
    rw [size_of_pages pages]
    omega
  obtain ⟨filled, fill, pages', bytes⟩ := Code.run_fillSpan (s := env) value inside
  have inside' : (sizeSlot address).toNat + 4 ≤ filled.size := by
    rw [size_of_pages (pages'.trans pages)]
    omega
  obtain ⟨memory, write, pages'', word, rest⟩ :=
    Code.run_writeWord (s := env) (m := { m with memory := filled }) w inside'
  refine ⟨memory, ?_, pages''.trans (pages'.trans pages), ?_, ?_⟩
  · rw [Code.run_bind_of_ok _ fill, Code.run_bind_of_ok _ write]
  · intro p hp
    rw [rest p (.inl (by omega)), bytes]
  · intro other lies'
    have slot' := toNat_sizeSlot lies'
    by_cases same : other = address
    · rw [if_pos same, same, word]
    · rw [if_neg same]
      have apart : other.toNat ≠ address.toNat := fun eq => same (UInt32.toNat_inj.mp eq)
      refine LinearMemory.word_congr fun p le lt => ?_
      rw [rest p (by omega), bytes, if_neg (by omega)]

/-! ## Memory that keeps a state -/

/-- A machine whose memory keeps the state of a first-fit allocator that reports nothing: the bytes
in use on the first page, and the sizes of blocks on the second. -/
structure Keeps (capacity : UInt32) (m : Machine) (s : FirstFit) : Prop where
  plain : s.Plain capacity
  pages : m.memory.pages = 2
  byte : ∀ p, p < capacity.toNat → m.memory.byte p = if s.used p then 1 else 0
  slot : ∀ a : UInt32, a < capacity →
    m.memory.word (sizeSlot a).toNat = (s.sizes.find? a).getD 0
  inside : ∀ a n, s.sizes.find? a = some n → a.toNat + n.toNat ≤ capacity.toNat
  quiet : s.Quiet
  logs : s.logs = []
  queued : m.notes = [] ∧ m.logs = []
  fault : m.fault = none

variable {o : GuestOptions} {m : Machine} {s : FirstFit}

/-- Takes a free window into use. -/
def take (size first : UInt32) : Code Int32 := do
  Code.fillSpan first size 1
  Code.writeWord (sizeSlot first) size
  return first.toInt32

/-- The scan takes the lowest free window, or gives up when there is none. -/
theorem run_firstFitFrom {env : Surroundings} {size i first run : UInt32} {left : Nat}
    (small : o.capacity.toNat ≤ slots) (keeps : Keeps o.capacity m s)
    (ahead : i.toNat + left = o.capacity.toNat)
    (scan : Scan s.Uses size.toNat i.toNat first.toNat run.toNat) :
    (firstFitFrom size left i first run).run env m
      = ((s.search size.toNat).elim (.finish (-1))
          fun start => take size (UInt32.ofNat start)).run env m := by
  have capacity := keeps.plain.capacity_eq
  have total : slots = 16384 := rfl
  induction left generalizing i first run with
  | zero =>
    have done : i.toNat = o.capacity.toNat := ahead
    have none_found : s.search size.toNat = none := by
      rw [FirstFit.search_eq_none_iff, capacity, ← done]
      exact .inr scan.full
    rw [none_found]
    rfl
  | succ left ih =>
    have reached := scan.reached
    have lies : i.toNat < o.capacity.toNat := by omega
    have next : (i + 1).toNat = i.toNat + 1 := by
      rw [UInt32.toNat_add, UInt32.toNat_one]
      omega
    have longer : (run + 1).toNat = run.toNat + 1 := by
      rw [UInt32.toNat_add, UInt32.toNat_one]
      omega
    have read : (Code.readByte i).run env m = (.ok (m.memory.byte i.toNat), m) := by
      refine Code.run_readByte ?_
      rw [size_of_pages keeps.pages]
      omega
    unfold firstFitFrom
    rw [Code.run_bind_of_ok _ read, keeps.byte _ lies]
    cases held : s.used i.toNat with
    | true =>
      have scan' := scan.of_used (show s.Uses i.toNat from held)
      rw [← next] at scan'
      exact ih (by omega) scan'
    | false =>
      have notHeld : ¬s.Uses i.toNat := by
        unfold FirstFit.Uses
        rw [held]
        exact Bool.false_ne_true
      by_cases long : run + 1 = size
      · have found : s.search size.toNat = some first.toNat := by
          rw [FirstFit.search_eq_some_iff, capacity]
          rw [← UInt32.toNat_inj, longer] at long
          exact ⟨by omega, scan.least notHeld long lies⟩
        rw [found]
        simp only [Bool.false_eq_true, if_false, ne_eq, not_true_eq_false, if_pos long,
          Option.elim_some, UInt32.ofNat_toNat]
        rfl
      · have short : run.toNat + 1 < size.toNat := by
          have ne : run.toNat + 1 ≠ size.toNat := by
            rw [← longer]
            exact fun eq => long (UInt32.toNat_inj.mp eq)
          have := scan.short
          omega
        have scan' := scan.of_free notHeld short
        rw [← next, ← longer] at scan'
        simp only [Bool.false_eq_true, if_false, ne_eq, not_true_eq_false, if_neg long]
        exact ih (by omega) scan'

/-! ## Calls -/

/-- A call that stops with a result, after no misuse, replies with it. -/
theorem enter_of_run {α : Type} {env : Surroundings} {code : Code α} {a : α} {m' : Machine}
    (clean : m.fault = none) (ran : code.run env m = (.ok a, m')) (clean' : m'.fault = none) :
    enter env code m = (.ok a, m') := by
  have same : { m with fault := none } = m := by
    rw [← clean]
  unfold enter
  rw [same, ran]
  simp only [clean']
  rfl

theorem toInt64_toInt32 {start : Nat} (small : start ≤ slots) :
    (UInt32.ofNat start).toInt32.toInt64 = Int64.ofNat start := by
  have total : slots = 16384 := rfl
  have word : (UInt32.ofNat start).toNat = start := by
    rw [UInt32.toNat_ofNat']
    omega
  have within : UInt32.ofNat start ≤ wordLimit := by
    rw [UInt32.le_iff_toNat_le, word]
    exact Nat.le_trans small (by decide)
  rw [← Int64.toInt_inj, Int32.toInt_toInt64, toInt_toInt32 within, word,
    Int64.toInt_ofNat_of_lt (by omega)]

/-- What the guest does to allocate. -/
def allocate (size : Int32) : Code Int32 := do
  if size ≤ 0 then return -1
  let capacity ← Code.ask .totalMemory
  firstFitFrom size.toUInt32 capacity.toUInt32.toNat 0 0 0

/-- What the guest does to release. -/
def release (address : Int32) : Code Unit := do
  let size ← Code.readWord (sizeSlot address.toUInt32)
  Code.fillSpan address.toUInt32 size 0
  Code.writeWord (sizeSlot address.toUInt32) 0

theorem firstFit_malloc (o : GuestOptions) (size : UInt32) (m : Machine) :
    (firstFit.host o).malloc size m =
      if wordLimit < size then (.ok (-1), m)
      else ((enter ⟨o, true⟩ (allocate size.toInt32) m).1.map Int32.toInt64,
        (enter ⟨o, true⟩ (allocate size.toInt32) m).2) := rfl

theorem firstFit_free {o : GuestOptions} {address : UInt32} (within : address ≤ wordLimit)
    (m : Machine) :
    (firstFit.host o).free address m = enter ⟨o, true⟩ (release address.toInt32) m :=
  if_neg (UInt32.not_lt.mpr within)

/-- The guest allocates what a search finds. -/
theorem run_allocate {size : UInt32} (small : o.capacity.toNat ≤ slots)
    (keeps : Keeps o.capacity m s) (within : size ≤ wordLimit) :
    (allocate size.toInt32).run ⟨o, true⟩ m
      = ((s.search size.toNat).elim (.finish (-1))
          fun start => take size (UInt32.ofNat start)).run ⟨o, true⟩ m := by
  have value := toInt_toInt32 within
  unfold allocate
  by_cases empty : size = 0
  · have none_found : s.search size.toNat = none :=
      FirstFit.search_eq_none_iff.mpr (.inl (congrArg UInt32.toNat empty))
    rw [none_found, empty]
    rfl
  · have positive : 0 < size.toNat :=
      Nat.pos_of_ne_zero fun zero => empty (UInt32.toNat_inj.mp zero)
    have notEmpty : ¬size.toInt32 ≤ 0 := by
      rw [Int32.le_iff_toInt_le, value, Int32.toInt_zero]
      omega
    rw [if_neg notEmpty]
    show (Code.ask .totalMemory >>= fun capacity =>
      firstFitFrom size.toInt32.toUInt32 capacity.toUInt32.toNat 0 0 0).run _ _ = _
    rw [Code.run_bind_of_ok _ Code.run_ask_totalMemory, UInt32.toUInt32_toInt32,
      UInt32.toUInt32_toInt32]
    exact run_firstFitFrom small keeps (Nat.zero_add _) (.start positive)

/-- The guest and the allocator whose state it keeps reply to an allocation alike. -/
theorem Keeps.malloc (small : o.capacity.toNat ≤ slots) (keeps : Keeps o.capacity m s)
    (size : UInt32) :
    Paired (Keeps o.capacity) ((firstFit.host o).malloc size m) (FirstFit.malloc size s) := by
  have total : slots = 16384 := rfl
  have capacity := keeps.plain.capacity_eq
  have quiet := keeps.quiet.malloc size
  have logs := (keeps.quiet.malloc_logs size).trans keeps.logs
  rw [firstFit_malloc]
  cases found : s.search size.toNat with
  | none =>
    obtain ⟨reply, plain, used, sizes, -⟩ := FirstFit.malloc_of_search_none keeps.plain found
    have kept : Keeps o.capacity m (FirstFit.malloc size s).2 :=
      ⟨plain, keeps.pages, used ▸ keeps.byte, sizes ▸ keeps.slot, sizes ▸ keeps.inside, quiet, logs,
        keeps.queued, keeps.fault⟩
    by_cases large : wordLimit < size
    · rw [if_pos large]
      exact ⟨reply.symm, kept⟩
    · have ran := run_allocate small keeps (UInt32.not_lt.mp large)
      rw [found] at ran
      rw [if_neg large, enter_of_run keeps.fault ran keeps.fault]
      exact ⟨reply.symm, kept⟩
  | some start =>
    obtain ⟨reply, plain, used, sizes, -⟩ := FirstFit.malloc_of_search_some keeps.plain found
    obtain ⟨positive, least⟩ := FirstFit.search_eq_some_iff.mp found
    have fits := least.fits
    rw [capacity] at fits
    have word : (UInt32.ofNat start).toNat = start := by
      rw [UInt32.toNat_ofNat']
      omega
    have within : size ≤ wordLimit := by
      rw [UInt32.le_iff_toNat_le]
      exact Nat.le_trans (show size.toNat ≤ 16384 by omega) (by decide)
    obtain ⟨memory, marked, pages, bytes, words⟩ := run_mark ⟨o, true⟩ (m := m) 1 size
      (fun _ => .finish (UInt32.ofNat start).toInt32) keeps.pages
      (show (UInt32.ofNat start).toNat < slots by omega)
      (show (UInt32.ofNat start).toNat + size.toNat ≤ slots by omega)
    have ran := run_allocate small keeps within
    rw [found] at ran
    rw [if_neg (UInt32.not_lt.mpr within), enter_of_run keeps.fault (ran.trans marked) keeps.fault]
    refine ⟨?_, plain, pages, ?_, ?_, ?_, quiet, logs, keeps.queued, keeps.fault⟩
    · rw [reply, ← toInt64_toInt32 (show start ≤ slots by omega)]
      rfl
    · intro p lies
      rw [bytes p (by omega), keeps.byte p lies, used, word]
      unfold FirstFit.fill
      split <;> rfl
    · intro a lies
      rw [words a (by rw [UInt32.lt_iff_toNat_lt] at lies; omega), keeps.slot a lies, sizes,
        OrderedMap.find?_insert]
      split <;> rfl
    · intro a n entry
      rw [sizes, OrderedMap.find?_insert] at entry
      split at entry
      · rename_i here
        cases entry
        rw [here, word]
        exact fits
      · exact keeps.inside a n entry

/-- The guest and the allocator whose state it keeps reply to a release alike, also to one of an
address that is no block's. -/
theorem Keeps.free (small : o.capacity.toNat ≤ slots) (keeps : Keeps o.capacity m s)
    {address : UInt32} (lies : address < o.capacity) :
    Paired (Keeps o.capacity) ((firstFit.host o).free address m) (FirstFit.free address s) := by
  have total : slots = 16384 := rfl
  have quiet := keeps.quiet.free address
  have logs := (keeps.quiet.free_logs address).trans keeps.logs
  have lies' : address.toNat < o.capacity.toNat := UInt32.lt_iff_toNat_lt.mp lies
  have within : address ≤ wordLimit := by
    rw [UInt32.le_iff_toNat_le]
    exact Nat.le_trans (show address.toNat ≤ 16384 by omega) (by decide)
  have slot := toNat_sizeSlot (show address.toNat < slots by omega)
  -- the slot of an address that is no block's holds zero, and then nothing is filled
  have read : (Code.readWord (sizeSlot address)).run ⟨o, true⟩ m
      = (.ok ((s.sizes.find? address).getD 0), m) := by
    rw [Code.run_readWord (by rw [size_of_pages keeps.pages]; omega), keeps.slot address lies]
  have fits : address.toNat + ((s.sizes.find? address).getD 0).toNat ≤ o.capacity.toNat := by
    cases found : s.sizes.find? address with
    | none => exact Nat.le_of_lt lies'
    | some size => exact keeps.inside address size found
  obtain ⟨memory, marked, pages, bytes, words⟩ := run_mark ⟨o, true⟩ (m := m) 0 0
    Code.finish keeps.pages (show address.toNat < slots by omega) (Nat.le_trans fits small)
  have ran : (release address.toInt32).run ⟨o, true⟩ m = (.ok (), { m with memory }) := by
    unfold release
    rw [UInt32.toUInt32_toInt32, Code.run_bind_of_ok _ read]
    exact marked
  have bytes' : ∀ p, p < o.capacity.toNat → memory.byte p =
      if FirstFit.fill false s.used address.toNat ((s.sizes.find? address).getD 0).toNat p then 1
      else 0 := by
    intro p lies
    rw [bytes p (by omega), keeps.byte p lies]
    unfold FirstFit.fill
    split <;> rfl
  have words' : ∀ a : UInt32, a < o.capacity →
      memory.word (sizeSlot a).toNat = ((s.sizes.erase address).find? a).getD 0 := by
    intro a lies
    rw [words a (by rw [UInt32.lt_iff_toNat_lt] at lies; omega), keeps.slot a lies,
      OrderedMap.find?_erase]
    split <;> rfl
  rw [firstFit_free within, enter_of_run keeps.fault ran keeps.fault]
  cases found : s.sizes.find? address with
  | none =>
    obtain ⟨reply, plain, used, sizes, -⟩ := FirstFit.free_of_find_none keeps.plain found
    refine ⟨reply.symm, plain, pages, ?_, ?_, sizes ▸ keeps.inside, quiet, logs, keeps.queued,
      keeps.fault⟩
    · intro p lies
      rw [bytes' p lies, found, used, Option.getD_none, UInt32.toNat_zero, FirstFit.fill_zero]
    · intro a lies
      rw [words' a lies, sizes, OrderedMap.find?_erase]
      split
      · rename_i here
        rw [here, found]
      · rfl
  | some size =>
    obtain ⟨reply, plain, used, sizes, -⟩ := FirstFit.free_of_find_some keeps.plain found
    refine ⟨reply.symm, plain, pages, ?_, ?_, ?_, quiet, logs, keeps.queued, keeps.fault⟩
    · intro p lies
      rw [bytes' p lies, found, used]
      rfl
    · intro a lies
      rw [words' a lies, sizes]
    · intro a n entry
      rw [sizes, OrderedMap.find?_erase] at entry
      split at entry
      · cases entry
      · exact keeps.inside a n entry

/-- The guest goes in lockstep with the first-fit allocator whose state it keeps. -/
theorem lockstep (small : o.capacity.toNat ≤ slots) :
    (firstFit.host o).Lockstep (FirstFit.host o.capacity) (Keeps o.capacity) where
  capacity := rfl
  setThread keeps _ := ⟨⟨keeps.plain.capacity_eq, keeps.plain.script_eq, keeps.plain.hasFree_eq⟩,
    keeps.pages, keeps.byte, keeps.slot, keeps.inside, ⟨keeps.quiet.annotating, keeps.quiet.notes⟩,
    keeps.logs, keeps.queued, keeps.fault⟩
  malloc keeps size := keeps.malloc small size
  free keeps _ lies := keeps.free small lies
  drainNotes keeps := ⟨keeps.queued.1.trans keeps.quiet.notes.symm,
    ⟨keeps.plain.capacity_eq, keeps.plain.script_eq, keeps.plain.hasFree_eq⟩, keeps.pages,
    keeps.byte, keeps.slot, keeps.inside, ⟨keeps.quiet.annotating, rfl⟩, keeps.logs,
    ⟨rfl, keeps.queued.2⟩, keeps.fault⟩
  drainLogs keeps := ⟨keeps.queued.2.trans keeps.logs.symm,
    ⟨keeps.plain.capacity_eq, keeps.plain.script_eq, keeps.plain.hasFree_eq⟩, keeps.pages,
    keeps.byte, keeps.slot, keeps.inside, ⟨keeps.quiet.annotating, keeps.quiet.notes⟩, rfl,
    ⟨keeps.queued.1, rfl⟩, keeps.fault⟩

/-! ## Loading -/

/-- Two blank pages keep the state of an allocator with all of its bytes free. -/
theorem keeps_blank (capacity : UInt32) :
    Keeps capacity { memory := .blank 2 } (FirstFit.empty capacity) where
  plain := ⟨rfl, rfl, rfl⟩
  pages := rfl
  byte _ _ := rfl
  slot a _ := by
    have zeros : (List.range' (sizeSlot a).toNat 4).map (LinearMemory.blank 2).byte
        = [0, 0, 0, 0] := rfl
    unfold LinearMemory.word
    rw [zeros]
    rfl
  inside _ _ found := nomatch found
  quiet := ⟨rfl, rfl⟩
  logs := rfl
  queued := ⟨rfl, rfl⟩
  fault := rfl

/-- The guest is loaded as two blank pages, when the options are valid and leave room for them. -/
theorem load_firstFit (positive : 1 ≤ o.capacity.toNat) (small : o.capacity.toNat ≤ slots)
    (unbounded : o.fuel = none) (room : 2 * LinearMemory.pageSize ≤ o.memoryLimit.toNat) :
    (ModuleSource.guest firstFit).load o = .ok (firstFit, { memory := .blank 2 }) := by
  have page : LinearMemory.pageSize = 65536 := rfl
  have valid : o.validate = .ok () := by
    have noZero : ¬o.capacity = 0 := by
      intro zero
      rw [zero] at positive
      exact absurd positive (by decide)
    have noExcess : ¬BadOptions.capacityLimit < o.capacity := by
      rw [UInt32.not_lt, UInt32.le_iff_toNat_le]
      exact Nat.le_trans small (by decide)
    unfold GuestOptions.validate
    rw [if_neg noZero, if_neg noExcess, unbounded, if_neg nofun, if_neg (by omega)]
  have booted : firstFit.boot o = .ok { memory := .blank 2 } := by
    have fits : ¬o.memoryLimit.toNat < firstFit.pages * LinearMemory.pageSize :=
      Nat.not_lt.mpr room
    unfold boot
    rw [if_neg fits]
    rfl
  have loaded : firstFit.load o = .ok { memory := .blank 2 } := by
    unfold Guest.load
    rw [booted]
    rfl
  unfold ModuleSource.load
  simp only [valid, loaded]
  rfl

end Guest

/-- A run has the same result with the first-fit guest and with the first-fit allocator that neither
annotates nor follows a script, for every capacity that the guest's table has room for. -/
theorem firstFit_guest_agrees (o : GuestOptions) (positive : 1 ≤ o.capacity.toNat)
    (small : o.capacity.toNat ≤ 16384) (unbounded : o.fuel = none)
    (room : 2 * LinearMemory.pageSize ≤ o.memoryLimit.toNat) :
    ∃ m, (ModuleSource.guest Guest.firstFit).load o = .ok (Guest.firstFit, m) ∧
      ∀ palette calls, (run (Guest.firstFit.host o) palette m calls).1
        = (run (FirstFit.host o.capacity) palette (FirstFit.empty o.capacity) calls).1 := by
  refine ⟨_, Guest.load_firstFit positive small unbounded room, fun palette calls => ?_⟩
  exact (run_lockstep (Guest.lockstep small) (Guest.keeps_blank o.capacity) palette calls).1

/-- The allocator knows nothing of pinned blocks, and hands out the same bytes. -/
def unaware : List Call :=
  [⟨.malloc 2 (some 3) none, none, none, 0, ⟨1⟩, ⟨1⟩⟩,
    ⟨.malloc 2 none none, none, none, 0, ⟨2⟩, ⟨1⟩⟩, ⟨.malloc 2 none none, none, none, 0, ⟨3⟩, ⟨1⟩⟩]

/-- With a pinned block in the way both fail at the third call. -/
theorem firstFit_guest_agrees_of_pinned :
    ∃ m, (ModuleSource.guest Guest.firstFit).load { capacity := 8 } = .ok (Guest.firstFit, m) ∧
      ∃ e, (run (Guest.firstFit.host { capacity := 8 }) .default m unaware).1 = .error e ∧
        (run (FirstFit.host 8) .default (FirstFit.empty 8) unaware).1 = .error e ∧
        e.callIndex = some 2 ∧ e.refusal = .overlap 3 := by
  obtain ⟨m, loaded, agrees⟩ :=
    firstFit_guest_agrees { capacity := 8 } (by decide) (by decide) rfl (by decide)
  obtain ⟨e, fails, index, refusal⟩ : ∃ e,
      (run (FirstFit.host 8) .default (FirstFit.empty 8) unaware).1 = .error e ∧
        e.callIndex = some 2 ∧ e.refusal = .overlap 3 := ⟨_, rfl, rfl, rfl⟩
  exact ⟨m, loaded, e, (agrees .default unaware).trans fails, fails, index, refusal⟩

end Heapscope
