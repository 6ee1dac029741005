import Heapscope.Proofs.Run.Woven

/-!
# The verdict of a run

A run can be told by its blocks alone: the list of blocks in use decides which calls are refused and
why, with sums of integers that have no bounds.  Memory with its map of bytes, its table and its
64-bit checks gives the same verdict for every allocator.

* `Blocks` -- a run that keeps a list of blocks and nothing else;
* `Blocks.place_eq`, `Heap.Sound.claim_blocks` -- the checks of bounds and of bytes, by the blocks;
* `Heap.Sound.apply_blocks`, `Heap.Sound.step_blocks` -- one call;
* `run_verdict` -- whole runs.
-/

namespace Heapscope

/-- Memory as the list of its blocks, oldest first. -/
structure Blocks (σ : Type) where
  host : σ
  live : List (AllocationKey × Block)
  uncolored : Nat

namespace Blocks

variable {σ : Type}

/-- The least of `size` bytes from `address` on that lies in a block. -/
def firstShared (live : List (AllocationKey × Block)) (address size : UInt32) : Option Nat :=
  (List.range' address.toNat size.toNat).find? fun b => live.any fun e => e.2.Covers b

/-- The address of a new block: a pinned one must lie in range, and so must the allocator's. -/
def place (h : Host σ) (size : UInt32) (pinned : Option UInt32) (host : σ) :
    Except Refusal UInt32 × σ :=
  match pinned with
  | some address =>
    if address.toNat + size.toNat ≤ h.capacity.toNat then (.ok address, host)
    else (.error (.invalid (.outside (.ofNat address.toNat) size h.capacity)), host)
  | none =>
    match h.malloc size host with
    | (.error e, host) => (.error (.ofHost e), host)
    | (.ok returned, host) =>
      if returned.toInt < 0 ∨ (h.capacity.toNat : Int) < returned.toInt + size.toNat then
        (.error (.outOfMemory size returned h.capacity), host)
      else (.ok (UInt32.ofNat returned.toInt.toNat), host)

/-- Takes a block into use unless its key is in use or it shares a byte with a block in use. -/
def claim (palette : Palette) (s : Blocks σ) (address size : UInt32) (pinned : Bool)
    (color : Option Color) (id : Option AllocationKey) :
    Except Refusal ((AllocationKey × Block) × Blocks σ) :=
  let key := id.getD (.address address)
  if key ∈ s.live.map Prod.fst then .error (.invalid (.duplicateKey key.text))
  else match firstShared s.live address size with
    | some b => .error (.overlap (UInt32.ofNat b))
    | none =>
      let block : Block := ⟨address, size, color.getD (palette.color s.uncolored), pinned⟩
      .ok ((key, block), { s with
        live := s.live ++ [(key, block)]
        uncolored := if color.isNone then s.uncolored + 1 else s.uncolored })

def malloc (h : Host σ) (palette : Palette) (s : Blocks σ) (size : UInt32)
    (pinned : Option UInt32) (color : Option Color) (id : Option AllocationKey) :
    Except Refusal ((AllocationKey × Block) × Blocks σ) :=
  if size = 0 then .error (.invalid (.size 0))
  else match place h size pinned s.host with
    | (.error e, _) => .error e
    | (.ok address, host) => claim palette { s with host } address size pinned.isSome color id

/-- Releases the block with a key; the allocator is told unless the block was pinned. -/
def free (h : Host σ) (s : Blocks σ) (key : AllocationKey) : Except Refusal (Block × Blocks σ) :=
  match s.live.find? fun e => e.1 == key with
  | none => .error (.unknownBlock key.text)
  | some (_, block) =>
    let rest := s.live.filter fun e => e.1 != key
    if block.pinned then .ok (block, { s with live := rest })
    else match h.free block.address s.host with
      | (.error e, _) => .error (.ofHost e)
      | (.ok (), host) => .ok (block, { s with host, live := rest })

/-- Performs a call, and completes it with the key, the address and the color of its block. -/
def apply (h : Host σ) (palette : Palette) (s : Blocks σ) (call : Call) :
    Except Refusal (Call × Blocks σ) :=
  match call.op with
  | .malloc size pinned color =>
    (s.malloc h palette size pinned color call.id).map fun ((key, block), s) =>
      ({ call with
        op := .malloc size pinned (some block.color), id := some key,
        result := some block.address }, s)
  | .free address color =>
    match call.id.or (address.map .address) with
    | none => .error (.unknownBlock "<unnamed>")
    | some key =>
      (s.free h key).map fun (block, s) =>
        ({ call with
          op := .free (some block.address) (some (color.getD block.color)), id := some key }, s)
  | .sleep => .ok (call, s)
  | .annotate note =>
    match note.validate h.capacity with
    | .ok () => .ok (call, s)
    | .error e => .error (.invalid e)

/-- The fault of the first note that is not valid. -/
def firstInvalid (capacity : UInt32) (notes : List Note) : Option Invalid :=
  notes.findSome? fun note =>
    match note.validate capacity with
    | .ok () => none
    | .error e => some e

/-- Makes one call; the annotations that the allocator queued follow it, all of them valid. -/
def step (h : Host σ) (palette : Palette) (s : Blocks σ) (index : Nat) (call : Call) :
    Except (Option Nat × Refusal) (List Call × Blocks σ) :=
  match apply h palette { s with host := h.setThread call.thread s.host } call with
  | .error e => .error (some index, e)
  | .ok (done, s) =>
    let (notes, host) := h.drainNotes (h.drainLogs s.host).2
    match firstInvalid h.capacity notes with
    | some e => .error (some index, .invalid e)
    | none =>
      let follow : Note → Call := fun note =>
        ⟨.annotate note, none, none, call.thread, call.time, call.duration⟩
      .ok (done :: notes.map follow, { s with host })

/-- Makes calls one after the other, up to the first that is refused. -/
def steps (h : Host σ) (palette : Palette) (s : Blocks σ) (index : Nat) :
    List Call → Except (Option Nat × Refusal) (List Call × Blocks σ)
  | [] => .ok ([], s)
  | call :: rest => do
    let (calls, s) ← s.step h palette index call
    let (more, s) ← s.steps h palette (index + 1) rest
    pure (calls ++ more, s)

/-- A whole run: the trace begins with the annotations that the allocator has queued before. -/
def run (h : Host σ) (palette : Palette) (host : σ) (calls : List Call) :
    Except (Option Nat × Refusal) (List Call × Blocks σ) :=
  let (notes, host) := h.drainNotes (h.drainLogs host).2
  (steps h palette ⟨host, [], 0⟩ 0 calls).map fun (made, s) =>
    (notes.map (fun note => ⟨.annotate note, none, none, 0, .zero, .zero⟩) ++ made, s)

/-! ## The checks of bounds -/

/-- The checks with 64-bit integers are those without bounds. -/
theorem place_eq (h : Host σ) (size : UInt32) (pinned : Option UInt32) (host : σ) :
    Heap.place h size pinned host = place h size pinned host := by
  unfold Heap.place place
  cases pinned with
  | some address =>
    simp only
    by_cases fits : address.toNat + size.toNat ≤ h.capacity.toNat
    · rw [if_pos fits, checkSpan_eq, if_pos fits]
    · rw [if_neg fits, checkSpan_eq, if_neg fits]
  | none =>
    simp only
    rcases h.malloc size host with ⟨e | returned, host'⟩
    · rfl
    · simp only
      by_cases refused : returned.toInt < 0 ∨ (h.capacity.toNat : Int) < returned.toInt + size.toNat
      · rw [if_pos refused]
        have not_ok : ∀ address, acceptReturned size returned h.capacity ≠ .ok address := by
          intro address ok
          obtain ⟨value, fits⟩ := acceptReturned_ok_iff.mp ok
          omega
        unfold acceptReturned at not_ok ⊢
        simp only at not_ok ⊢
        split
        · rfl
        · rename_i accepted
          rw [if_neg accepted] at not_ok
          exact absurd rfl (not_ok _)
      · rw [if_neg refused]
        have capacity_lt := h.capacity.toNat_lt
        have word : (UInt32.ofNat returned.toInt.toNat).toNat = returned.toInt.toNat := by
          rw [UInt32.toNat_ofNat']
          omega
        rw [acceptReturned_ok_iff.mpr (by rw [word]; omega)]

/-- The least shared byte is the one that a search for it finds. -/
theorem firstShared_eq_some_iff {live : List (AllocationKey × Block)} {address size : UInt32}
    {b : Nat} : firstShared live address size = some b ↔
      address.toNat ≤ b ∧ b < address.toNat + size.toNat ∧ (∃ e ∈ live, e.2.Covers b) ∧
        ∀ c, address.toNat ≤ c → c < b → ¬∃ e ∈ live, e.2.Covers c := by
  unfold firstShared
  rw [List.find?_range'_eq_some, List.mem_range'_1]
  simp only [List.any_eq_true, decide_eq_true_eq, Bool.not_eq_true', ← Bool.not_eq_true]
  constructor
  · rintro ⟨shared, ⟨le, lt⟩, least⟩
    exact ⟨le, lt, shared, least⟩
  · rintro ⟨le, lt, shared, least⟩
    exact ⟨shared, ⟨le, lt⟩, least⟩

theorem firstShared_eq_none_iff {live : List (AllocationKey × Block)} {address size : UInt32} :
    firstShared live address size = none ↔
      ∀ b, address.toNat ≤ b → b < address.toNat + size.toNat → ¬∃ e ∈ live, e.2.Covers b := by
  unfold firstShared
  rw [List.find?_eq_none]
  simp only [List.mem_range'_1, List.any_eq_true, decide_eq_true_eq]
  constructor
  · intro free b le lt
    exact free b ⟨le, lt⟩
  · rintro free b ⟨le, lt⟩
    exact free b le lt

end Blocks

/-! ## One call -/

namespace Heap

variable {σ : Type} {h : Host σ} {palette : Palette}

/-- Memory, told by its blocks. -/
def blocks (heap : Heap σ) : Blocks σ := ⟨heap.host, heap.live.entries, heap.uncolored⟩

/-- What memory gives and leaves, with memory told by its blocks. -/
def verdict {α : Type} (out : Except Refusal α × Heap σ) : Except Refusal (α × Blocks σ) :=
  out.1.map fun a => (a, out.2.blocks)

namespace Sound

variable {capacity : UInt32} {done : List Call} {heap heap' : Heap σ}

/-- A byte is in use when a block in use covers it. -/
theorem mark_blocks (sound : Sound capacity done heap) {address size : UInt32}
    (fits : address.toNat + size.toNat ≤ capacity.toNat) :
    (∃ bytes, heap.bytes.mark address size = .ok bytes ∧
        Blocks.firstShared heap.live.entries address size = none) ∨
      ∃ b, heap.bytes.mark address size = .error (.inUse (UInt32.ofNat b)) ∧
        Blocks.firstShared heap.live.entries address size = some b := by
  rw [← sound.capacity_eq] at fits
  rcases Occupancy.mark_verdict sound.wellFormed address size with
    ⟨bytes, ok, marked⟩ | ⟨-, beyond⟩ | ⟨b, inUse, -, le, lt, holds, least⟩
  · refine .inl ⟨bytes, ok, Blocks.firstShared_eq_none_iff.mpr ?_⟩
    intro b le lt covered
    exact marked.free b le lt ((sound.holds_iff b).mpr covered)
  · omega
  · refine .inr ⟨b, inUse, Blocks.firstShared_eq_some_iff.mpr ⟨le, lt, ?_, ?_⟩⟩
    · exact (sound.holds_iff b).mp holds
    · intro c hle hlt covered
      exact least c hle hlt ((sound.holds_iff c).mpr covered)

theorem claim_blocks (sound : Sound capacity done heap) {address size : UInt32}
    (fits : address.toNat + size.toNat ≤ capacity.toNat) (pinned : Bool) (color : Option Color)
    (id : Option AllocationKey) :
    heap.blocks.claim palette address size pinned color id
      = (claim palette heap address size pinned color id).map fun (key, block, heap) =>
          ((key, block), heap.blocks) := by
  unfold Blocks.claim Heap.claim
  simp only
  by_cases live : heap.live.contains (id.getD (.address address)) = true
  · have member : id.getD (.address address) ∈ heap.blocks.live.map Prod.fst :=
      List.contains_iff_mem.mp live
    rw [if_pos member, if_pos live]
    rfl
  · have absent : id.getD (.address address) ∉ heap.blocks.live.map Prod.fst :=
      fun member => live (List.contains_iff_mem.mpr member)
    have fresh := OrderedMap.contains_eq_false_iff.mp (Bool.not_eq_true _ ▸ live)
    rw [if_neg absent, if_neg live]
    rcases sound.mark_blocks fits with ⟨bytes, marked, free⟩ | ⟨b, inUse, shared⟩
    · have none_shared : Blocks.firstShared heap.blocks.live address size = none := free
      rw [none_shared, marked]
      simp only [Except.map, blocks, OrderedMap.entries_insert_of_fresh _ fresh]
    · have some_shared : Blocks.firstShared heap.blocks.live address size = some b := shared
      rw [some_shared, inUse]
      rfl

theorem malloc_blocks (sound : Sound h.capacity done heap) (size : UInt32)
    (pinned : Option UInt32) (color : Option Color) (id : Option AllocationKey) :
    heap.blocks.malloc h palette size pinned color id
      = verdict (heap.malloc h palette size pinned color id) := by
  unfold Blocks.malloc Heap.malloc
  by_cases empty : size = 0
  · rw [if_pos empty, if_pos empty]
    rfl
  · rw [if_neg empty, if_neg empty]
    have same : Blocks.place h size pinned heap.blocks.host = place h size pinned heap.host :=
      (Blocks.place_eq h size pinned heap.host).symm
    rw [same]
    rcases placed : place h size pinned heap.host with ⟨e | address, host⟩
    · rfl
    · simp only
      -- asking the allocator changes nothing but the allocator
      have told : Sound h.capacity done { heap with host } := sound.congr rfl rfl
      refine (told.claim_blocks (place_fits placed) pinned.isSome color id).trans ?_
      rcases claim palette { heap with host } address size pinned.isSome color id with
        e | ⟨key, block, heap'⟩
      · rfl
      · rfl

theorem free_blocks (sound : Sound capacity done heap) (key : AllocationKey) :
    heap.blocks.free h key = verdict (heap.free h key) := by
  unfold Blocks.free Heap.free
  have find : heap.live.find? key = (heap.blocks.live.find? fun e => e.1 == key).map Prod.snd := rfl
  rcases entry : heap.blocks.live.find? (fun e => e.1 == key) with _ | ⟨key', block⟩
  · rw [entry] at find
    simp only [entry, find, Option.map_none]
    rfl
  · rw [entry] at find
    obtain ⟨bytes, cleared⟩ := sound.clear_ok find
    simp only [entry, find, Option.map_some, cleared]
    by_cases pinned : block.pinned = true
    · simp only [pinned, if_true]
      rfl
    · simp only [pinned, Bool.false_eq_true, if_false]
      have host : heap.blocks.host = heap.host := rfl
      rw [host]
      rcases h.free block.address heap.host with ⟨e | _, host'⟩
      · rfl
      · rfl

/-- A call has the verdict that the blocks in use give. -/
theorem apply_blocks (sound : Sound h.capacity done heap) (call : Call) :
    heap.blocks.apply h palette call = verdict (heap.apply h palette call) := by
  unfold Blocks.apply Heap.apply
  cases op : call.op with
  | malloc size pinned color =>
    simp only
    rw [sound.malloc_blocks]
    rcases heap.malloc h palette size pinned color call.id with ⟨e | ⟨key, block⟩, heap'⟩
    · rfl
    · rfl
  | free address color =>
    simp only
    cases call.id.or (address.map .address) with
    | none => rfl
    | some key =>
      simp only
      rw [sound.free_blocks]
      rcases heap.free h key with ⟨e | block, heap'⟩
      · rfl
      · rfl
  | sleep => rfl
  | annotate note =>
    simp only
    cases note.validate h.capacity with
    | error e => rfl
    | ok => rfl

end Sound

/-! ## Steps -/

/-- Notes become calls unless one of them is not valid, and the first such is named. -/
theorem noteCalls_eq (capacity : UInt32) (o : Origin) (notes : List Note) :
    noteCalls capacity o notes = match Blocks.firstInvalid capacity notes with
      | some e => .error e
      | none => .ok (notes.map o.noteCall) := by
  unfold noteCalls Blocks.firstInvalid
  induction notes with
  | nil => rfl
  | cons note rest ih =>
    rw [List.mapM_cons, ih, List.findSome?_cons]
    cases note.validate capacity with
    | error e => rfl
    | ok =>
      simp only [Except.map, bind, Except.bind]
      cases List.findSome? _ rest with
      | none => rfl
      | some e => rfl

namespace Sound

variable {capacity : UInt32} {done : List Call} {heap heap' : Heap σ}

theorem step_blocks (sound : Sound h.capacity done heap) (index : Nat) (call : Call) :
    heap.blocks.step h palette index call
      = (heap.step h palette index call).result.map fun calls =>
          (calls, (heap.step h palette index call).heap.blocks) := by
  have told : Sound h.capacity done { heap with host := h.setThread call.thread heap.host } :=
    sound.congr rfl rfl
  have applies :
      Blocks.apply h palette { heap.blocks with host := h.setThread call.thread heap.host } call
        = verdict
            (apply h palette { heap with host := h.setThread call.thread heap.host } call) :=
    told.apply_blocks call
  unfold Blocks.step Heap.step
  have host : heap.blocks.host = heap.host := rfl
  simp only [host, applies]
  rcases apply h palette { heap with host := h.setThread call.thread heap.host } call with
    ⟨e | done, heap'⟩
  · rfl
  · unfold collect
    simp only [verdict, Except.map, noteCalls_eq]
    have host' : heap'.blocks.host = heap'.host := rfl
    rw [host']
    cases Blocks.firstInvalid h.capacity (h.drainNotes (h.drainLogs heap'.host).2).1 with
    | some e => rfl
    | none => rfl

/-- Blocks and memory stay in step up to the first refusal. -/
theorem steps_blocks (sound : Sound h.capacity done heap) (index : Nat) (calls : List Call) :
    heap.blocks.steps h palette index calls
      = (heap.steps h palette index calls).result.map fun made =>
          (made, (heap.steps h palette index calls).heap.blocks) := by
  induction calls generalizing heap done index with
  | nil => rfl
  | cons call rest ih =>
    rw [Blocks.steps, sound.step_blocks]
    cases first : (heap.step h palette index call).result with
    | error e =>
      rw [steps_cons_of_error first]
      rfl
    | ok calls =>
      obtain ⟨heap_eq, result_eq⟩ := steps_cons_of_ok rest first
      rw [heap_eq, result_eq]
      simp only [Except.map, bind, Except.bind]
      rw [ih (sound.step first)]
      cases ((heap.step h palette index call).heap.steps h palette (index + 1) rest).result with
      | error e => rfl
      | ok more => rfl

end Sound

end Heap

/-! ## Whole runs -/

section Runs

variable {σ : Type} {h : Host σ} {palette : Palette} {host : σ} {calls : List Call}

/-- A setup with valid annotations is not refused. -/
theorem setup_of_valid
    (valid : ∀ note ∈ Heap.queued h (Heap.start h host), note.validate h.capacity = .ok ()) :
    (Heap.setup h host).result
        = .ok ((Heap.queued h (Heap.start h host)).map Origin.setup.noteCall) ∧
      (Heap.setup h host).heap.blocks
        = ⟨(h.drainNotes (h.drainLogs host).2).2, [], 0⟩ := by
  refine ⟨Heap.setup_ok_of_valid valid, ?_⟩
  unfold Heap.setup Heap.blocks
  rw [Heap.collect_host, Heap.collect_live, Heap.collect_uncolored]
  rfl

theorem runCalls_blocks
    (valid : ∀ note ∈ Heap.queued h (Heap.start h host), note.validate h.capacity = .ok ())
    (sorted : InOrder calls) :
    Blocks.run h palette host calls = (runCalls h palette host calls).result.map fun made =>
      (made, (runCalls h palette host calls).heap.blocks) := by
  obtain ⟨noted, blocks⟩ := setup_of_valid valid
  have stepped : Blocks.steps h palette (Heap.setup h host).heap.blocks 0 calls = _ :=
    (Heap.Sound.setup noted).steps_blocks 0 calls
  rw [blocks] at stepped
  rw [runCalls_of_inOrder noted sorted]
  unfold Blocks.run
  simp only [stepped]
  cases ((Heap.setup h host).heap.steps h palette 0 calls).result with
  | error e => rfl
  | ok made => rfl

/-- A run of sorted calls with a palette and a setup that is not refused has the verdict that the
list of its blocks gives, for every allocator: it succeeds with the same trace and the same blocks
in use, or fails at the same call for the same reason. -/
theorem run_verdict (nonempty : palette.colors ≠ [])
    (valid : ∀ note ∈ Heap.queued h (Heap.start h host), note.validate h.capacity = .ok ())
    (sorted : InOrder calls) :
    ((run h palette host calls).1.map fun r => (r.trace.calls, r.live.entries)).mapError
        (fun e => (e.callIndex, e.refusal))
      = (Blocks.run h palette host calls).map (fun out => (out.1, out.2.live)) ∧
    ∀ out, Blocks.run h palette host calls = .ok out →
      (run h palette host calls).2 = out.2.host := by
  have colors : ¬palette.colors.isEmpty = true := by simpa using nonempty
  have final : (run h palette host calls).2 = (runCalls h palette host calls).heap.host := by
    unfold run
    rw [if_neg colors]
  rw [runCalls_blocks valid sorted, final]
  cases made : (runCalls h palette host calls).result with
  | error e =>
    have refused : (run h palette host calls).1
        = .error ⟨e.2, e.1, (runCalls h palette host calls).logs⟩ := by
      unfold run Outcome.finish
      rw [if_neg colors]
      simp only [made]
    rw [refused]
    exact ⟨rfl, nofun⟩
  | ok done =>
    obtain ⟨r, succeeds, trace, -, live⟩ := run_of_runCalls_ok nonempty made
    rw [succeeds]
    refine ⟨?_, ?_⟩
    · show Except.ok (r.trace.calls, r.live.entries) = _
      rw [trace, live]
      rfl
    · intro out eq
      cases eq
      rfl

/-- Two blocks, where the allocator has the second reach into the first. -/
def overlapping : List Call :=
  [⟨.malloc 3 none none, none, none, 0, ⟨1⟩, ⟨4⟩⟩, ⟨.malloc 4 none none, none, none, 0, ⟨2⟩, ⟨4⟩⟩]

/-- The least byte in common is named, and the second call. -/
theorem run_verdict_of_overlap :
    ∃ e, (run (FirstFit.host 8) .default { FirstFit.empty 8 with script := [.ok 2, .ok 1] }
        overlapping).1 = .error e ∧ e.callIndex = some 1 ∧ e.refusal = .overlap 2 := by
  have valid : ∀ note ∈ Heap.queued (FirstFit.host 8) (Heap.start (FirstFit.host 8)
      { FirstFit.empty 8 with script := [.ok 2, .ok 1] }), note.validate 8 = .ok () := by
    intro note member
    cases member
  have sorted : InOrder overlapping :=
    inOrder_of_firstUnsortedFrom (show firstUnsorted _ = none by decide)
  obtain ⟨same, -⟩ := run_verdict (show Palette.default.colors ≠ [] by decide) valid sorted
  have blocks : (Blocks.run (FirstFit.host 8) .default
      { FirstFit.empty 8 with script := [.ok 2, .ok 1] } overlapping).map
        (fun out => (out.1, out.2.live)) = .error (some 1, .overlap 2) := by rfl
  rw [blocks] at same
  cases ran : (run (FirstFit.host 8) .default { FirstFit.empty 8 with script := [.ok 2, .ok 1] }
      overlapping).1 with
  | ok r =>
    rw [ran] at same
    cases same
  | error e =>
    rw [ran] at same
    obtain ⟨index, refusal⟩ := Prod.mk.inj (Except.error.inj same)
    exact ⟨e, rfl, index, refusal⟩

end Runs

end Heapscope
