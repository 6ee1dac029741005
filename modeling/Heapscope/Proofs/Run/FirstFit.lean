import Heapscope.Proofs.Host.FirstFit
import Heapscope.Proofs.Note
import Heapscope.Proofs.Run.Agreement
import Heapscope.Proofs.Run.Prefixes
import Heapscope.Proofs.Run.Refusals

/-!
# Runs of a first-fit allocator

A first-fit allocator keeps books of its own: a map of the bytes in use and a table of sizes.  During
a run of calls that pin no block they agree with memory, so the run never finds fault with the
allocator, and the allocator says that memory is full only when it is.

* `FirstFit.Mirrors` -- the two books agree;
* `FirstFit.InStep.applied`, `FirstFit.InStep.step` -- a call keeps them in agreement;
* `FirstFit.InStep.step_ok_malloc`, `FirstFit.InStep.step_outOfMemory_iff` -- where an allocation
  goes, and when it fails;
* `firstFit_run` -- whole runs.
-/

namespace Heapscope

/-- Whether a call allocates at an address that it names. -/
def Call.isPinned (c : Call) : Bool :=
  match c.op with
  | .malloc _ (some _) _ => true
  | _ => false

theorem Call.pinned_eq_none {c : Call} {size : UInt32} {pinned : Option UInt32}
    {color : Option Color} (unpinned : c.isPinned = false)
    (op : c.op = .malloc size pinned color) : pinned = none := by
  cases pinned with
  | none => rfl
  | some address =>
    unfold isPinned at unpinned
    rw [op] at unpinned
    cases unpinned

namespace FirstFit

/-- An allocator that has not been asked for anything yet. -/
def fresh (capacity : UInt32) (annotating : Bool) : FirstFit :=
  { FirstFit.empty capacity with annotating }

/-- The allocator's own books agree with memory. -/
structure Mirrors (heap : Heap FirstFit) : Prop where
  /-- It marks the bytes in use. -/
  uses_iff : ∀ b, heap.host.Uses b ↔ heap.bytes.Holds b
  /-- Its table holds the blocks in use. -/
  sizes_iff : ∀ address size, heap.host.sizes.find? address = some size ↔
    ∃ e ∈ heap.live.entries, e.2.address = address ∧ e.2.size = size

/-- What every call keeps: agreement, an allocator that answers by itself, no pinned blocks, and
valid annotations in the queue. -/
structure InStep (capacity : UInt32) (heap : Heap FirstFit) : Prop extends Mirrors heap where
  plain : heap.host.Plain capacity
  unpinned : ∀ e ∈ heap.live.entries, e.2.pinned = false
  valid : ∀ note ∈ heap.host.notes, note.validate capacity = .ok ()

variable {capacity : UInt32} {palette : Palette} {heap heap' : Heap FirstFit} {call done : Call}
  {trace : List Call}

theorem InStep.uses_eq (inStep : InStep capacity heap) : heap.host.Uses = heap.bytes.Holds :=
  funext fun b => propext (inStep.uses_iff b)

theorem uses_fill {value : Bool} {used : Nat → Bool} {start size b : Nat} :
    fill value used start size b = true ↔
      if start ≤ b ∧ b < start + size then value = true else used b = true := by
  unfold fill
  split <;> rfl

/-! ## Placing a block -/

/-- A block goes where the search finds a window. -/
theorem place_of_search_some {s : FirstFit} {size : UInt32} {start : Nat} (plain : s.Plain capacity)
    (found : s.search size.toNat = some start) :
    (UInt32.ofNat start).toNat = start ∧
      Heap.place (host capacity) size none s = (.ok (UInt32.ofNat start), (malloc size s).2) := by
  obtain ⟨-, least⟩ := search_eq_some_iff.mp found
  have fits := least.fits
  rw [plain.capacity_eq] at fits
  have bound := capacity.toNat_lt
  have word : (UInt32.ofNat start).toNat = start := by
    rw [UInt32.toNat_ofNat']
    omega
  have accepted : acceptReturned size (Int64.ofNat start) capacity = .ok (UInt32.ofNat start) := by
    rw [acceptReturned_ok_iff, word]
    exact ⟨Int64.toInt_ofNat_of_lt (by omega), fits⟩
  refine ⟨word, ?_⟩
  have replied := (malloc_of_search_some plain found).1
  unfold Heap.place host
  simp only
  rw [show malloc size s = ((malloc size s).1, (malloc size s).2) from rfl, replied]
  simp only [accepted]

/-- Without a window the reply is -1, which no run takes for an address. -/
theorem place_of_search_none {s : FirstFit} {size : UInt32} (plain : s.Plain capacity)
    (none_found : s.search size.toNat = none) :
    Heap.place (host capacity) size none s
      = (.error (.outOfMemory size (-1) capacity), (malloc size s).2) := by
  have refused : acceptReturned size (-1) capacity = .error (.outOfMemory size (-1) capacity) := by
    unfold acceptReturned
    rw [if_pos (.inr (by decide))]
  have replied := (malloc_of_search_none plain none_found).1
  unfold Heap.place host
  simp only
  rw [show malloc size s = ((malloc size s).1, (malloc size s).2) from rfl, replied]
  simp only [refused]

/-- What was placed was found, and the allocator has taken it into use. -/
theorem search_of_place_ok {s s' : FirstFit} {size address : UInt32} (plain : s.Plain capacity)
    (placed : Heap.place (host capacity) size none s = (.ok address, s')) :
    s.search size.toNat = some address.toNat ∧ s' = (malloc size s).2 := by
  cases found : s.search size.toNat with
  | none =>
    rw [place_of_search_none plain found] at placed
    cases placed
  | some start =>
    obtain ⟨word, here⟩ := place_of_search_some plain found
    rw [here] at placed
    cases placed
    exact ⟨by rw [word], rfl⟩

/-! ## One call -/

theorem validate_highlight {address size : UInt32} (positive : size ≠ 0)
    (fits : address.toNat + size.toNat ≤ capacity.toNat) :
    (highlight address size).validate capacity = .ok () := by
  have extent : (highlight address size).extent = size := by
    have one_le : 1 ≤ size.toNat :=
      Nat.pos_of_ne_zero fun zero => positive (UInt32.toNat_inj.mp zero)
    show max size 1 = size
    apply UInt32.toNat_inj.mp
    rw [toNat_max]
    exact Nat.max_eq_left one_le
  refine Note.validate_ok_iff.mpr ⟨?_, rfl, by rw [extent]; exact fits⟩
  show (if size = 0 then Except.error (Invalid.size 0) else .ok ()) = .ok ()
  rw [if_neg positive]

theorem validate_unmark {address : UInt32} (inside : address.toNat < capacity.toNat) :
    (Note.bare (.remove .range) address).validate capacity = .ok () :=
  Note.validate_ok_iff.mpr ⟨rfl, rfl, inside⟩

/-- One more annotation is queued when the allocator annotates at all. -/
theorem valid_append {s : FirstFit} {note : Note} {notes : List Note}
    (before : ∀ n ∈ s.notes, n.validate capacity = .ok ())
    (valid : note.validate capacity = .ok ()) (queued : notes = s.notes ++ s.emitted note) :
    ∀ n ∈ notes, n.validate capacity = .ok () := by
  subst queued
  intro n member
  rcases List.mem_append.mp member with old | new
  · exact before n old
  · unfold emitted at new
    split at new
    · rw [List.mem_singleton.mp new]
      exact valid
    · cases new

/-- A call that is made leaves the books in agreement. -/
theorem InStep.applied (inStep : InStep capacity heap) (sound : Heap.Sound capacity trace heap)
    (unpinned : call.isPinned = false)
    (made : Heap.Applied (host capacity) palette heap call done heap') :
    InStep capacity heap' := by
  cases made with
  | @malloc size address pinned color key block s bytes op positive placed named fresh marked_ok
      block_eq =>
    cases Call.pinned_eq_none unpinned op
    obtain ⟨found, rfl⟩ := search_of_place_ok inStep.plain placed
    obtain ⟨-, plain, used, sizes, notes⟩ := malloc_of_search_some inStep.plain found
    have marked := Occupancy.marked_of_mark_ok sound.wellFormed marked_ok
    have entries := OrderedMap.entries_insert_of_fresh block
      (OrderedMap.contains_eq_false_iff.mp fresh)
    have fits := marked.fits
    rw [sound.capacity_eq] at fits
    subst block_eq
    have covered : address.toNat < address.toNat + size.toNat :=
      Nat.lt_add_of_pos_right
        (Nat.pos_of_ne_zero fun zero => positive (UInt32.toNat_inj.mp zero))
    refine ⟨⟨?_, ?_⟩, plain, ?_, ?_⟩
    · intro b
      rw [marked.holds, ← inStep.uses_iff]
      unfold Uses
      simp only [used, uses_fill]
      split
      · rename_i inside
        simp [inside]
      · rename_i outside
        simp [outside]
    · intro a n
      simp only [sizes, UInt32.ofNat_toNat, OrderedMap.find?_insert, entries, List.mem_append,
        List.mem_singleton, or_and_right, exists_or, exists_eq_left]
      by_cases same : a = address
      · subst same
        rw [if_pos rfl]
        constructor
        · intro eq
          cases eq
          exact .inr ⟨rfl, rfl⟩
        · rintro (⟨e, live, at_address, -⟩ | ⟨-, size_eq⟩)
          -- a block in use at the address would have its first byte in use
          · have covers := Block.covers_address (sound.inside live)
            rw [at_address] at covers
            exact absurd ((sound.holds_iff _).mpr ⟨e, live, covers⟩)
              (marked.free _ (Nat.le_refl _) covered)
          · rw [size_eq]
      · rw [if_neg same, inStep.sizes_iff]
        constructor
        · exact .inl
        · rintro (old | ⟨at_address, -⟩)
          · exact old
          · exact absurd at_address.symm same
    · intro e member
      rw [entries] at member
      rcases List.mem_append.mp member with old | new
      · exact inStep.unpinned e old
      · rw [List.mem_singleton.mp new]
        rfl
    · rw [UInt32.ofNat_toNat] at notes
      exact valid_append inStep.valid (validate_highlight positive fits) notes
  | @free address color key block s bytes op named found cleared_ok told =>
    have member := OrderedMap.find?_eq_some_iff.mp found
    have inside := sound.inside member
    have known : heap.host.sizes.find? block.address = some block.size :=
      (inStep.sizes_iff _ _).mpr ⟨_, member, rfl, rfl⟩
    obtain ⟨-, plain, used, sizes, notes⟩ := free_of_find_some inStep.plain known
    have cleared := Occupancy.cleared_of_clear_ok sound.wellFormed cleared_ok
    have not_pinned : block.pinned = false := inStep.unpinned _ member
    rw [not_pinned, if_neg (by decide)] at told
    obtain rfl : s = (free block.address heap.host).2 := (congrArg Prod.snd told).symm
    refine ⟨⟨?_, ?_⟩, plain, ?_, ?_⟩
    · intro b
      rw [cleared.holds, ← inStep.uses_iff]
      unfold Uses
      simp only [used, uses_fill]
      split
      · rename_i inside
        simp [inside]
      · rename_i outside
        simp [outside]
    · intro a n
      simp only [sizes, OrderedMap.find?_erase, OrderedMap.entries_erase, List.mem_filter,
        bne_iff_ne]
      by_cases same : a = block.address
      · rw [if_pos same]
        simp only [reduceCtorEq, false_iff, not_exists, not_and]
        rintro e ⟨live, other⟩ at_address
        -- two blocks in use at one address would share its byte
        have distinct : e ≠ (key, block) := by
          rintro rfl
          exact other rfl
        have covers := Block.covers_address (sound.inside live)
        rw [at_address, same] at covers
        exact absurd ⟨covers, Block.covers_address inside⟩
          (sound.disjoint_of_ne live member distinct block.address.toNat)
      · rw [if_neg same, inStep.sizes_iff]
        constructor
        · rintro ⟨e, live, at_address, size_eq⟩
          refine ⟨e, ⟨live, ?_⟩, at_address, size_eq⟩
          rintro rfl
          rw [OrderedMap.eq_of_mem_entries live member] at at_address
          exact same at_address.symm
        · rintro ⟨e, ⟨live, -⟩, at_address, size_eq⟩
          exact ⟨e, live, at_address, size_eq⟩
    · intro e live
      exact inStep.unpinned e (List.mem_filter.mp live).1
    · exact valid_append inStep.valid
        (validate_unmark (Nat.lt_of_lt_of_le (Nat.lt_add_of_pos_right inside.1) inside.2)) notes
  | sleep op => exact inStep
  | annotate op valid => exact inStep

/-! ## Steps -/

/-- The thread is none of the books' business. -/
theorem InStep.told (inStep : InStep capacity heap) (call : Call) :
    InStep capacity (heap.told (host capacity) call) :=
  ⟨⟨inStep.uses_iff, inStep.sizes_iff⟩,
    ⟨inStep.plain.capacity_eq, inStep.plain.script_eq, inStep.plain.hasFree_eq⟩,
    inStep.unpinned, inStep.valid⟩

/-- The queues are emptied, and nothing else changes. -/
theorem InStep.collect (inStep : InStep capacity heap) (o : Origin) (calls : List Call) :
    InStep capacity (heap.collect (host capacity) o (.ok calls)).heap := by
  have drained : (heap.collect (host capacity) o (.ok calls)).heap.host
      = { heap.host with logs := [], notes := [] } := Heap.collect_host calls
  refine ⟨⟨?_, ?_⟩, ?_, ?_, ?_⟩
  · rw [drained, Heap.collect_bytes]
    exact inStep.uses_iff
  · rw [drained, Heap.collect_live]
    exact inStep.sizes_iff
  · rw [drained]
    exact ⟨inStep.plain.capacity_eq, inStep.plain.script_eq, inStep.plain.hasFree_eq⟩
  · rw [Heap.collect_live]
    exact inStep.unpinned
  · rw [drained]
    exact nofun

theorem InStep.step {index : Nat} {calls : List Call} (inStep : InStep capacity heap)
    (sound : Heap.Sound capacity trace heap) (unpinned : call.isPinned = false)
    (ok : (heap.step (host capacity) palette index call).result = .ok calls) :
    InStep capacity (heap.step (host capacity) palette index call).heap := by
  obtain ⟨done, heap', made, -⟩ := Heap.step_ok ok
  have told : Heap.Sound capacity trace (heap.told (host capacity) call) := sound.congr rfl rfl
  rw [Heap.step_of_applied index made]
  exact ((inStep.told call).applied told unpinned made).collect _ _

theorem InStep.start (capacity : UInt32) (annotating : Bool) :
    InStep capacity (Heap.start (host capacity) (fresh capacity annotating)) where
  uses_iff b := by
    constructor
    · intro absurd
      cases absurd
    · intro holds
      exact absurd holds (Occupancy.not_holds_empty capacity b)
  sizes_iff address size := by
    constructor
    · intro absurd
      cases absurd
    · rintro ⟨e, absurd, -⟩
      cases absurd
  plain := ⟨rfl, rfl, rfl⟩
  unpinned := nofun
  valid := nofun

/-- The books agree throughout a run that pins no blocks. -/
theorem InStep.of_reaches {annotating : Bool} {calls : List Call}
    (unpinned : ∀ c ∈ calls, c.isPinned = false)
    (reaches : Heap.Reaches (host capacity) palette (fresh capacity annotating) calls trace heap) :
    Heap.Sound capacity trace heap ∧ InStep capacity heap := by
  -- the table and the map of bytes are compared through the blocks in use, so the invariant of
  -- memory goes along
  refine Heap.reaches_invariant_of_forall (fun trace heap =>
    Heap.Sound capacity trace heap ∧ InStep capacity heap) ?_ ?_ unpinned reaches
  · intro notes ok
    exact ⟨Heap.Sound.setup ok, (InStep.start capacity annotating).collect _ _⟩
  · rintro done heap index call calls unpinned ⟨sound, inStep⟩ ok
    exact ⟨Heap.Sound.step sound ok, inStep.step sound unpinned ok⟩

/-! ## Refusals -/

/-- An allocator whose annotations are valid never spoils a call: a step is refused when the call
itself is. -/
theorem InStep.apply_of_step_error {index : Nat} {place : Option Nat} {e : Refusal}
    (inStep : InStep capacity heap) (sound : Heap.Sound capacity trace heap)
    (unpinned : call.isPinned = false)
    (error : (heap.step (host capacity) palette index call).result = .error (place, e)) :
    place = some index ∧
      ((heap.told (host capacity) call).apply (host capacity) palette call).1 = .error e := by
  have told : Heap.Sound capacity trace (heap.told (host capacity) call) := sound.congr rfl rfl
  unfold Heap.step at error
  simp only at error
  generalize eq : Heap.apply (host capacity) palette
    { heap with host := (host capacity).setThread call.thread heap.host } call = out at error
  obtain ⟨result, heap'⟩ := out
  have applied : (heap.told (host capacity) call).apply (host capacity) palette call
      = (result, heap') := eq
  obtain ⟨rfl, refused | ⟨made, ok, note, queued, i, invalid, -⟩⟩ := Heap.collect_refused error
  · exact ⟨rfl, by rw [applied, error_of_map_error refused]⟩
  · cases result with
    | error e' => cases ok
    | ok done =>
      have after := (inStep.told call).applied told unpinned (Heap.applied_of_apply_ok applied)
      have valid : note.validate capacity = .error i := invalid
      rw [after.valid note queued] at valid
      cases valid

/-- A call that is refused is refused for memory that is full, or not for what the allocator did. -/
theorem InStep.refused {e : Refusal} (inStep : InStep capacity heap)
    (sound : Heap.Sound capacity trace heap) (unpinned : call.isPinned = false)
    (refused : Heap.Refused (host capacity) heap call e) :
    (∃ size color, call.op = .malloc size none color ∧ size ≠ 0 ∧
      Window.Full heap.bytes.Holds capacity.toNat size.toNat ∧
      e = .outOfMemory size (-1) capacity) ∨
    ((∀ a, e ≠ .overlap a) ∧ ∀ n r c, e ≠ .outOfMemory n r c) := by
  cases refused with
  | unplaced op positive error =>
    cases Call.pinned_eq_none unpinned op
    rename_i size color s
    cases found : heap.host.search size.toNat with
    | some start =>
      rw [(place_of_search_some inStep.plain found).2] at error
      cases error
    | none =>
      rw [place_of_search_none inStep.plain found] at error
      cases error
      refine .inl ⟨size, color, op, positive, ?_, rfl⟩
      rcases search_eq_none_iff.mp found with zero | full
      · exact absurd (UInt32.toNat_inj.mp zero) positive
      · rwa [inStep.uses_eq, inStep.plain.capacity_eq] at full
  | @occupied size address pinned color s fault op positive placed fresh unmarked =>
    cases Call.pinned_eq_none unpinned op
    -- the bytes of the window are free in both books, so marking them does not fail
    obtain ⟨found, -⟩ := search_of_place_ok inStep.plain placed
    obtain ⟨-, least⟩ := search_eq_some_iff.mp found
    have free := least.free
    have fits := least.fits
    rw [inStep.uses_eq] at free
    rw [inStep.plain.capacity_eq, ← sound.capacity_eq] at fits
    rcases Occupancy.mark_verdict sound.wellFormed address size with
      ⟨bytes, ok, -⟩ | ⟨-, beyond⟩ | ⟨b, -, -, le, lt, holds, -⟩
    · rw [ok] at unmarked
      cases unmarked
    · omega
    · exact absurd holds (free b le lt)
  | unoccupied op named found uncleared =>
    obtain ⟨bytes, cleared⟩ := sound.clear_ok found
    rw [cleared] at uncleared
    cases uncleared
  | @unreleased address color key block s lack op named found told =>
    have member := OrderedMap.find?_eq_some_iff.mp found
    have known : heap.host.sizes.find? block.address = some block.size :=
      (inStep.sizes_iff _ _).mpr ⟨_, member, rfl, rfl⟩
    have replied : (free block.address heap.host).1 = .ok () :=
      (free_of_find_some inStep.plain known).1
    rw [inStep.unpinned _ member, if_neg (by decide)] at told
    have lacking : (free block.address heap.host).1 = .error lack := congrArg Prod.fst told
    rw [replied] at lacking
    cases lacking
  | empty op => exact .inr ⟨nofun, nofun⟩
  | taken op positive placed live => exact .inr ⟨nofun, nofun⟩
  | unnamed op none_named => exact .inr ⟨nofun, nofun⟩
  | unknown op named none_found => exact .inr ⟨nofun, nofun⟩
  | note op invalid => exact .inr ⟨nofun, nofun⟩

/-- An allocation is refused when no window is free. -/
theorem InStep.apply_of_full {size : UInt32} {color : Option Color}
    (inStep : InStep capacity heap) (op : call.op = .malloc size none color) (positive : size ≠ 0)
    (full : Window.Full heap.bytes.Holds capacity.toNat size.toNat) :
    (heap.apply (host capacity) palette call).1 = .error (.outOfMemory size (-1) capacity) := by
  have none_found : heap.host.search size.toNat = none := by
    rw [search_eq_none_iff, inStep.uses_eq, inStep.plain.capacity_eq]
    exact .inr full
  unfold Heap.apply
  simp only [op, Heap.malloc, if_neg positive, place_of_search_none inStep.plain none_found]

/-! ## Allocations at a step -/

/-- Nothing is queued before the first call. -/
theorem setup_fresh (capacity : UInt32) (annotating : Bool) :
    (Heap.setup (host capacity) (fresh capacity annotating)).result = .ok [] :=
  Heap.setup_ok_of_valid nofun

/-- An allocation that is accepted goes to the lowest window that is free. -/
theorem InStep.step_ok_malloc {index : Nat} {size : UInt32} {color : Option Color}
    {calls : List Call} (inStep : InStep capacity heap) (op : call.op = .malloc size none color)
    (ok : (heap.step (host capacity) palette index call).result = .ok calls) :
    ∃ done notes address, calls = done :: notes ∧ done.result = some address ∧
      Window.Least heap.bytes.Holds capacity.toNat size.toNat address.toNat := by
  obtain ⟨done, heap', made, -, rfl, -⟩ := Heap.step_ok ok
  cases made with
  | @malloc size' address pinned color' key block s bytes op' positive placed =>
    rw [op] at op'
    cases op'
    obtain ⟨found, -⟩ := search_of_place_ok (inStep.told call).plain placed
    obtain ⟨-, least⟩ := search_eq_some_iff.mp found
    rw [(inStep.told call).uses_eq, (inStep.told call).plain.capacity_eq] at least
    exact ⟨_, _, address, rfl, rfl, least⟩
  | free op' =>
    rw [op] at op'
    cases op'
  | sleep op' =>
    rw [op] at op'
    cases op'
  | annotate op' =>
    rw [op] at op'
    cases op'

/-- Memory is said to be full when no window of the size is free, and then only. -/
theorem InStep.step_outOfMemory_iff {index : Nat} {place : Option Nat} {size cap : UInt32}
    {returned : Int64} (inStep : InStep capacity heap) (sound : Heap.Sound capacity trace heap)
    (unpinned : call.isPinned = false) :
    (heap.step (host capacity) palette index call).result
        = .error (place, .outOfMemory size returned cap) ↔
      place = some index ∧ returned = -1 ∧ cap = capacity ∧ size ≠ 0 ∧
        (∃ color, call.op = .malloc size none color) ∧
        Window.Full heap.bytes.Holds capacity.toNat size.toNat := by
  have told : Heap.Sound capacity trace (heap.told (host capacity) call) := sound.congr rfl rfl
  constructor
  · intro error
    obtain ⟨rfl, failed⟩ := inStep.apply_of_step_error sound unpinned error
    have refused : Heap.Refused (host capacity) (heap.told (host capacity) call) call _ :=
      Heap.refused_of_apply_error (Prod.ext failed rfl)
    rcases (inStep.told call).refused told unpinned refused with
      ⟨size', color, op, positive, full, same⟩ | ⟨-, other⟩
    · cases same
      exact ⟨rfl, rfl, rfl, positive, ⟨color, op⟩, full⟩
    · exact absurd rfl (other size returned cap)
  · rintro ⟨rfl, rfl, rfl, positive, ⟨color, op⟩, full⟩
    exact Heap.step_of_apply_error ((inStep.told call).apply_of_full op positive full)

end FirstFit

/-! ## Whole runs -/

section Runs

open FirstFit

variable {palette : Palette} {calls : List Call}

/-- A first-fit allocator is never blamed without cause.  Before every call of a run that pins no
blocks, its map of bytes and its table are those of the run, whether it annotates or not; an
allocation that is accepted goes to the lowest window of free bytes; a run that fails fails for its
own call, not for a byte that was handed out twice and not for an annotation; and it fails for full
memory, always with -1 for the address, exactly when a block is asked for and no window is free. -/
theorem firstFit_run (capacity : UInt32) (annotating : Bool) (nonempty : palette.colors ≠ [])
    (sorted : InOrder calls) (unpinned : ∀ c ∈ calls, c.isPinned = false) :
    (∀ n done heap, Heap.Reaches (host capacity) palette (fresh capacity annotating)
      (calls.take n) done heap → Mirrors heap) ∧
    (∀ i call heap size color made,
      Heap.Meets (host capacity) palette (fresh capacity annotating) calls i call heap →
      call.op = .malloc size none color →
      (heap.step (host capacity) palette i call).result = .ok made →
      ∃ done notes address, made = done :: notes ∧ done.result = some address ∧
        Window.Least heap.bytes.Holds capacity.toNat size.toNat address.toNat) ∧
    (∀ e, (run (host capacity) palette (fresh capacity annotating) calls).1 = .error e →
      (∀ a, e.refusal ≠ .overlap a) ∧
      ∃ i call heap, e.callIndex = some i ∧
        Heap.Meets (host capacity) palette (fresh capacity annotating) calls i call heap ∧
        ((heap.told (host capacity) call).apply (host capacity) palette call).1
          = .error e.refusal) ∧
    ∀ place size returned cap,
      (∃ e, (run (host capacity) palette (fresh capacity annotating) calls).1 = .error e ∧
        e.callIndex = place ∧ e.refusal = .outOfMemory size returned cap) ↔
      ∃ i call heap color, place = some i ∧ returned = -1 ∧ cap = capacity ∧ size ≠ 0 ∧
        Heap.Meets (host capacity) palette (fresh capacity annotating) calls i call heap ∧
        call.op = .malloc size none color ∧
        Window.Full heap.bytes.Holds capacity.toNat size.toNat := by
  have noted := setup_fresh capacity annotating
  have meets : ∀ {i call heap},
      Heap.Meets (host capacity) palette (fresh capacity annotating) calls i call heap →
      call.isPinned = false ∧ ∃ done, Heap.Sound capacity done heap ∧ InStep capacity heap := by
    rintro i call heap ⟨here, done, reaches⟩
    refine ⟨unpinned call (List.mem_of_getElem? here), done, ?_⟩
    exact InStep.of_reaches (fun c member => unpinned c (List.mem_of_mem_take member)) reaches
  refine ⟨?mirrors, ?accepted, ?fails, ?full⟩
  case mirrors =>
    intro n done heap reaches
    exact (InStep.of_reaches (fun c member => unpinned c (List.mem_of_mem_take member))
      reaches).2.toMirrors
  case accepted =>
    intro i call heap size color made met op ok
    obtain ⟨-, done, -, inStep⟩ := meets met
    exact inStep.step_ok_malloc op ok
  case fails =>
    intro e error
    obtain ⟨i, call, heap, met, failed⟩ :=
      (run_error_iff_step nonempty sorted noted).mp ⟨e, error, rfl, rfl⟩
    obtain ⟨own, done, sound, inStep⟩ := meets met
    obtain ⟨index, refusal⟩ := inStep.apply_of_step_error sound own failed
    refine ⟨?_, i, call, heap, index, met, refusal⟩
    have told : Heap.Sound capacity done (heap.told (host capacity) call) := sound.congr rfl rfl
    have refused : Heap.Refused (host capacity) (heap.told (host capacity) call) call _ :=
      Heap.refused_of_apply_error (Prod.ext refusal rfl)
    rcases (inStep.told call).refused told own refused with
      ⟨size, color, -, -, -, same⟩ | ⟨no_overlap, -⟩
    · rw [same]
      exact nofun
    · exact no_overlap
  case full =>
    intro place size returned cap
    rw [run_error_iff_step nonempty sorted noted]
    constructor
    · rintro ⟨i, call, heap, met, failed⟩
      obtain ⟨own, done, sound, inStep⟩ := meets met
      obtain ⟨rfl, rfl, rfl, positive, ⟨color, op⟩, full⟩ :=
        (inStep.step_outOfMemory_iff sound own).mp failed
      exact ⟨i, call, heap, color, rfl, rfl, rfl, positive, met, op, full⟩
    · rintro ⟨i, call, heap, color, rfl, rfl, rfl, positive, met, op, full⟩
      obtain ⟨own, done, sound, inStep⟩ := meets met
      exact ⟨i, call, heap, met, (inStep.step_outOfMemory_iff sound own).mpr
        ⟨rfl, rfl, rfl, positive, ⟨color, op⟩, full⟩⟩

/-- A block is released and its first half taken again; then three bytes are free, but not in a
row. -/
def fragmented : List Call :=
  [⟨.malloc 4 none none, none, none, 0, ⟨1⟩, ⟨1⟩⟩, ⟨.malloc 3 none none, none, none, 0, ⟨2⟩, ⟨1⟩⟩,
    ⟨.free (some 0) none, none, none, 0, ⟨3⟩, ⟨1⟩⟩, ⟨.malloc 2 none none, none, none, 0, ⟨4⟩, ⟨1⟩⟩,
    ⟨.malloc 3 none none, none, none, 0, ⟨5⟩, ⟨1⟩⟩]

/-- The run of an allocator that annotates fails at the last call, since no three bytes in a row
are free. -/
theorem firstFit_run_of_fragmented :
    Palette.default.colors ≠ [] ∧ InOrder fragmented ∧ (∀ c ∈ fragmented, c.isPinned = false) ∧
    ∃ call heap, fragmented[4]? = some call ∧
      Heap.Meets (host 8) .default (fresh 8 true) fragmented 4 call heap ∧
      Mirrors heap ∧ Window.Full heap.bytes.Holds 8 3 ∧
      ∃ e, (run (host 8) .default (fresh 8 true) fragmented).1 = .error e ∧
        e.refusal = .outOfMemory 3 (-1) 8 := by
  have nonempty : Palette.default.colors ≠ [] := by decide
  have sorted : InOrder fragmented :=
    inOrder_of_firstUnsortedFrom (show firstUnsorted _ = none by decide)
  have unpinned : ∀ c ∈ fragmented, c.isPinned = false := by decide
  obtain ⟨mirrors, -, -, full⟩ := firstFit_run 8 true nonempty sorted unpinned
  obtain ⟨e, fails, index, refusal⟩ : ∃ e,
      (run (host 8) .default (fresh 8 true) fragmented).1 = .error e ∧ e.callIndex = some 4 ∧
        e.refusal = .outOfMemory 3 (-1) 8 := ⟨_, rfl, rfl, rfl⟩
  obtain ⟨i, call, heap, color, place, -, -, -, met, -, none_free⟩ :=
    (full (some 4) 3 (-1) 8).mp ⟨e, fails, index, refusal⟩
  cases place
  obtain ⟨here, done, reaches⟩ := met
  exact ⟨nonempty, sorted, unpinned, call, heap, here, ⟨here, done, reaches⟩,
    mirrors 4 done heap reaches, none_free, e, fails, refusal⟩

end Runs

end Heapscope
