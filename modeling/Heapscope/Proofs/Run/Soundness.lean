import Heapscope.Proofs.Memory.Spans
import Heapscope.Proofs.OrderedMap
import Heapscope.Proofs.Run.Steps
import Heapscope.Proofs.Trace.Blocks
import Mathlib.Data.List.Pairwise

/-!
# Memory during a run

Memory keeps the blocks in use twice, as a table and as a map of bytes, and the trace tells the same
a third time.  The three agree before every call of every run, whatever the allocator replies:

* `Heap.Sound` -- the invariant: blocks and bytes agree, and so do blocks and the trace;
* `Heap.Sound.step` -- a step keeps it;
* `Heap.Sound.of_reaches` -- so it holds throughout a run.
-/

namespace Heapscope

/-- The last byte of the block of an allocation. -/
def Call.lastByte? (c : Call) : Option Nat := c.allocation?.map fun e => e.2.last

theorem max?_concat (l : List Nat) (n : Nat) : (l ++ [n]).max? = some (l.max?.elim n (max n)) := by
  cases l with
  | nil => rfl
  | cons a rest =>
    rw [List.cons_append, List.max?_cons', List.max?_cons', List.foldl_append]
    simp [Nat.max_comm]

theorem toNat_max (a b : UInt32) : (max a b).toNat = max a.toNat b.toNat := by
  show (if a ≤ b then b else a).toNat = _
  rw [Nat.max_def]
  simp only [UInt32.le_iff_toNat_le]
  split <;> rfl

namespace Heap

variable {σ : Type}

/-- Blocks, bytes and trace agree. -/
structure Sound (capacity : UInt32) (done : List Call) (heap : Heap σ) : Prop where
  wellFormed : heap.bytes.WellFormed
  capacity_eq : heap.bytes.capacity = capacity
  executed : Executed capacity done
  held_eq : (held done).map Call.allocation? = heap.live.entries.map some
  holds_iff : ∀ b, heap.bytes.Holds b ↔ ∃ e ∈ heap.live.entries, e.2.Covers b
  occupied_eq : heap.bytes.occupied = (heap.live.entries.map fun e => e.2.size.toNat).sum
  peak_eq : heap.bytes.peak.map UInt32.toNat = (done.filterMap Call.lastByte?).max?
  balance : done.countP Call.isMalloc = done.countP Call.isFree + heap.live.entries.length

namespace Sound

variable {capacity : UInt32} {done : List Call} {heap heap' : Heap σ}

/-- Only the bytes and the blocks matter. -/
theorem congr (sound : Sound capacity done heap) (bytes : heap'.bytes = heap.bytes)
    (live : heap'.live = heap.live) : Sound capacity done heap' where
  wellFormed := bytes ▸ sound.wellFormed
  capacity_eq := bytes ▸ sound.capacity_eq
  executed := sound.executed
  held_eq := live ▸ sound.held_eq
  holds_iff := by
    rw [bytes, live]
    exact sound.holds_iff
  occupied_eq := by
    rw [bytes, live]
    exact sound.occupied_eq
  peak_eq := bytes ▸ sound.peak_eq
  balance := live ▸ sound.balance

/-! ### Blocks in use -/

/-- A block in use is the block of an allocation that is held. -/
theorem held_of_live (sound : Sound capacity done heap) {e : AllocationKey × Block}
    (member : e ∈ heap.live.entries) : ∃ m ∈ held done, m.allocation? = some e := by
  have mapped : some e ∈ (held done).map Call.allocation? := by
    rw [sound.held_eq]
    exact List.mem_map_of_mem member
  exact List.mem_map.mp mapped

theorem live_of_held (sound : Sound capacity done heap) {m : Call} (member : m ∈ held done) :
    ∃ e ∈ heap.live.entries, m.allocation? = some e := by
  have mapped : m.allocation? ∈ heap.live.entries.map some := by
    rw [← sound.held_eq]
    exact List.mem_map_of_mem member
  obtain ⟨e, he, eq⟩ := List.mem_map.mp mapped
  exact ⟨e, he, eq.symm⟩

/-- The blocks in use are those that the trace holds, in the same order. -/
theorem heldBlocks_eq (sound : Sound capacity done heap) :
    (heldBlocks done).map Prod.snd = heap.live.entries.map Prod.snd := by
  have blocks : (heldBlocks done).map Prod.snd
      = ((held done).map Call.allocation?).filterMap (Option.map Prod.snd) := by
    unfold heldBlocks
    rw [List.map_filterMap, List.filterMap_map]
    refine List.filterMap_congr fun m _ => ?_
    rw [Function.comp_apply]
    cases m.allocation? <;> rfl
  rw [blocks, sound.held_eq, List.filterMap_map]
  exact congrFun List.filterMap_eq_map heap.live.entries

theorem inside (sound : Sound capacity done heap) {e : AllocationKey × Block}
    (member : e ∈ heap.live.entries) : e.2.Inside capacity := by
  obtain ⟨m, hm, made⟩ := sound.held_of_live member
  obtain ⟨e', made', inside⟩ := sound.executed.held_inside m hm
  rw [made] at made'
  cases made'
  exact inside

theorem disjoint (sound : Sound capacity done heap) :
    heap.live.entries.Pairwise fun d e => d.2.Disjoint e.2 := by
  have pairs : (heap.live.entries.map some).Pairwise
      fun d e => ∀ d' ∈ d, ∀ e' ∈ e, d'.2.Disjoint e'.2 := by
    rw [← sound.held_eq, List.pairwise_map]
    refine sound.executed.separate.imp ?_
    intro m n apart d hd e he
    exact (apart d hd e he).2
  rw [List.pairwise_map] at pairs
  refine pairs.imp ?_
  intro d e apart
  exact apart d rfl e rfl

theorem disjoint_of_ne (sound : Sound capacity done heap) {d e : AllocationKey × Block}
    (hd : d ∈ heap.live.entries) (he : e ∈ heap.live.entries) (ne : d ≠ e) :
    d.2.Disjoint e.2 := by
  have symm : Std.Symm fun d e : AllocationKey × Block => d.2.Disjoint e.2 :=
    ⟨fun _ _ => Block.Disjoint.symm⟩
  exact sound.disjoint.forall hd he ne

/-! ### Every call keeps it -/

theorem empty (h : Host σ) (host : σ) : Sound h.capacity [] (start h host) where
  wellFormed := Occupancy.wellFormed_empty h.capacity
  capacity_eq := rfl
  executed := .nil
  held_eq := rfl
  holds_iff := by
    intro b
    constructor
    · intro holds
      exact absurd holds (Occupancy.not_holds_empty h.capacity b)
    · rintro ⟨e, member, -⟩
      cases member
  occupied_eq := rfl
  peak_eq := rfl
  balance := rfl

/-- Taking a block into use. -/
theorem malloc (sound : Sound capacity done heap) {c : Call} {key : AllocationKey} {block : Block}
    (made : c.allocation? = some (key, block)) (positive : 0 < block.size.toNat)
    (fresh : heap.live.contains key = false)
    (marked : heap.bytes.Marked block.address block.size heap'.bytes)
    (live : heap'.live = heap.live.insert key block) : Sound capacity (done ++ [c]) heap' := by
  have isMalloc := Call.isMalloc_of_allocation made
  have entries : heap'.live.entries = heap.live.entries ++ [(key, block)] := by
    rw [live]
    exact OrderedMap.entries_insert_of_fresh block (OrderedMap.contains_eq_false_iff.mp fresh)
  have nonzero : ¬block.size = 0 := by
    intro zero
    rw [zero] at positive
    exact absurd positive (by decide)
  -- a byte in common would be in use already, and marking found all of the span free
  have apart : ∀ m ∈ held done, Separate m c := by
    intro m member d hd e he
    obtain ⟨d', live', made'⟩ := sound.live_of_held member
    rw [made', Option.mem_some_iff] at hd
    rw [made, Option.mem_some_iff] at he
    subst hd
    subst he
    refine ⟨OrderedMap.contains_eq_false_iff.mp fresh _ live', ?_⟩
    intro byte both
    exact marked.free byte both.2.1 both.2.2 ((sound.holds_iff byte).mpr ⟨_, live', both.1⟩)
  exact {
    wellFormed := marked.wellFormed
    capacity_eq := marked.capacity.trans sound.capacity_eq
    executed := sound.executed.concat
      (.malloc made ⟨positive, sound.capacity_eq ▸ marked.fits⟩ apart)
    held_eq := by
      rw [held_concat_malloc done isMalloc, List.map_append, sound.held_eq, entries,
        List.map_append, List.map_singleton, made]
      rfl
    holds_iff := by
      intro b
      rw [marked.holds, sound.holds_iff, entries]
      simp only [List.mem_append, List.mem_singleton, or_and_right, exists_or, exists_eq_left]
      rfl
    occupied_eq := by
      rw [marked.occupied, sound.occupied_eq, entries]
      simp
    peak_eq := by
      have last : (block.address + block.size - 1).toNat = block.last := by
        have fits := marked.fits
        have bound := heap.bytes.capacity.toNat_lt
        have one : (1 : UInt32).toNat = 1 := rfl
        have sum : (block.address + block.size).toNat
            = block.address.toNat + block.size.toNat := by
          rw [UInt32.toNat_add, Nat.mod_eq_of_lt (by omega)]
        rw [UInt32.toNat_sub_of_le _ _ (by rw [UInt32.le_iff_toNat_le, sum, one]; omega), sum, one]
        rfl
      have lastByte : c.lastByte? = some block.last := by
        unfold Call.lastByte?
        rw [made]
        rfl
      rw [marked.peak, if_neg nonzero, List.filterMap_append, List.filterMap_cons_some lastByte,
        List.filterMap_nil, max?_concat, ← sound.peak_eq]
      cases heap.bytes.peak with
      | none => simp [last]
      | some p => simp [last, toNat_max]
    balance := by
      rw [List.countP_append, List.countP_append, sound.balance, entries]
      simp [isMalloc, Call.isFree_eq_false isMalloc]
      omega }

/-- Filtering on both sides of a correspondence by tests that agree. -/
theorem map_filter_of_agree {α β : Type} {f : α → Option β} {l : List α} {l' : List β}
    {p : α → Bool} {q : β → Bool} (eq : l.map f = l'.map some)
    (agree : ∀ a ∈ l, ∀ b ∈ l', f a = some b → p a = q b) :
    (l.filter p).map f = (l'.filter q).map some := by
  induction l generalizing l' with
  | nil =>
    cases l' with
    | nil => rfl
    | cons b rest => cases eq
  | cons a rest ih =>
    cases l' with
    | nil => cases eq
    | cons b rest' =>
      obtain ⟨head, tail⟩ := List.cons.inj eq
      have same := agree a List.mem_cons_self b List.mem_cons_self head
      have rest_eq := ih tail fun a ha b hb =>
        agree a (List.mem_cons_of_mem _ ha) b (List.mem_cons_of_mem _ hb)
      rw [List.filter_cons, List.filter_cons, same]
      cases q b with
      | false => exact rest_eq
      | true => simp [head, rest_eq]

/-- Giving a block back. -/
theorem free (sound : Sound capacity done heap) {c : Call} {key : AllocationKey} {block : Block}
    {color : Option Color} (op : c.op = .free (some block.address) color) (id : c.id = some key)
    (found : heap.live.find? key = some block)
    (cleared : heap.bytes.Cleared block.address block.size heap'.bytes)
    (live : heap'.live = heap.live.erase key) : Sound capacity (done ++ [c]) heap' := by
  have isFree : c.isFree = true := by rw [Call.isFree, op]
  have isMalloc := Call.isMalloc_eq_false isFree
  have member := OrderedMap.find?_eq_some_iff.mp found
  have entries : heap'.live.entries = heap.live.entries.filter fun e => e.1 != key := by
    rw [live]
    rfl
  -- among the allocations that are held, the release meets the one with its key only
  have meets : ∀ m ∈ held done, ∀ e ∈ heap.live.entries, m.allocation? = some e →
      (!c.releases m) = (e.1 != key) := by
    rintro m - ⟨key', block'⟩ he made
    rw [bne, Bool.not_inj_iff, Bool.eq_iff_iff, Call.releases_iff op made, id, beq_iff_eq]
    constructor
    · rintro ⟨same, -⟩
      exact (Option.some.inj same).symm
    · rintro rfl
      rw [OrderedMap.eq_of_mem_entries he member]
      exact ⟨rfl, rfl⟩
  obtain ⟨m, hm, made⟩ := sound.held_of_live member
  have released : c.releases m = true := (Call.releases_iff op made).mpr ⟨id, rfl⟩
  exact {
    wellFormed := cleared.wellFormed
    capacity_eq := cleared.capacity.trans sound.capacity_eq
    executed := sound.executed.concat (.free hm released)
    held_eq := by
      rw [held_concat done isMalloc, entries]
      exact map_filter_of_agree sound.held_eq meets
    holds_iff := by
      intro b
      rw [cleared.holds, sound.holds_iff, entries]
      constructor
      · rintro ⟨⟨e, he, covers⟩, outside⟩
        refine ⟨e, List.mem_filter.mpr ⟨he, bne_iff_ne.mpr ?_⟩, covers⟩
        rintro rfl
        rw [OrderedMap.eq_of_mem_entries he member] at covers
        exact outside covers
      -- another block keeps its bytes, for it has none in common with the one that is given back
      · rintro ⟨e, he, covers⟩
        obtain ⟨he, ne⟩ := List.mem_filter.mp he
        refine ⟨⟨e, he, covers⟩, ?_⟩
        intro both
        have distinct : e ≠ (key, block) := by
          rintro rfl
          exact bne_iff_ne.mp ne rfl
        exact sound.disjoint_of_ne he member distinct b ⟨covers, both⟩
    occupied_eq := by
      have weight := OrderedMap.sum_entries_erase (fun e => e.2.size.toNat) found
      rw [cleared.occupied, sound.occupied_eq, live, weight]
      simp
    peak_eq := by
      have lastByte : c.lastByte? = none := by
        unfold Call.lastByte? Call.allocation?
        rw [op]
        rfl
      rw [cleared.peak, sound.peak_eq, List.filterMap_append, List.filterMap_cons_none lastByte,
        List.filterMap_nil, List.append_nil]
    balance := by
      rw [List.countP_append, List.countP_append, sound.balance, live,
        OrderedMap.length_entries_erase found]
      simp [isMalloc, isFree]
      omega }

/-- A call that neither allocates nor releases. -/
theorem other (sound : Sound capacity done heap) {c : Call} (notMalloc : c.isMalloc = false)
    (notFree : c.isFree = false)
    (valid : ∀ note, c.op = .annotate note → note.validate capacity = .ok ()) :
    Sound capacity (done ++ [c]) heap where
  wellFormed := sound.wellFormed
  capacity_eq := sound.capacity_eq
  executed := sound.executed.concat (.other notMalloc notFree valid)
  held_eq := by
    rw [held_concat_other done notMalloc notFree]
    exact sound.held_eq
  holds_iff := sound.holds_iff
  occupied_eq := sound.occupied_eq
  peak_eq := by
    have lastByte : c.lastByte? = none := by
      cases made : c.allocation? with
      | none =>
        unfold Call.lastByte?
        rw [made]
        rfl
      | some e =>
        rw [Call.isMalloc_of_allocation made] at notMalloc
        cases notMalloc
    rw [sound.peak_eq, List.filterMap_append, List.filterMap_cons_none lastByte,
      List.filterMap_nil, List.append_nil]
  balance := by
    rw [List.countP_append, List.countP_append, sound.balance]
    simp [notMalloc, notFree]

/-- Annotations of the allocator. -/
theorem notes (sound : Sound capacity done heap) (o : Origin) {notes : List Note}
    (valid : ∀ n ∈ notes, n.validate capacity = .ok ()) :
    Sound capacity (done ++ notes.map o.noteCall) heap := by
  induction notes generalizing done with
  | nil =>
    rw [List.map_nil, List.append_nil]
    exact sound
  | cons note rest ih =>
    obtain ⟨first, others⟩ := List.forall_mem_cons.mp valid
    have one : Sound capacity (done ++ [o.noteCall note]) heap := by
      refine sound.other rfl rfl ?_
      rintro note' op
      cases op
      exact first
    rw [List.map_cons, List.append_cons]
    exact ih one others

/-- A call that is not refused. -/
theorem applied {h : Host σ} {palette : Palette} {call c : Call}
    (sound : Sound h.capacity done heap) (made : Applied h palette heap call c heap') :
    Sound h.capacity (done ++ [c]) heap' := by
  cases made with
  | malloc op positive placed named fresh marked block_eq =>
    subst block_eq
    refine sound.malloc rfl ?_ fresh (Occupancy.marked_of_mark_ok sound.wellFormed marked) rfl
    rw [Nat.pos_iff_ne_zero]
    exact fun zero => positive (UInt32.toNat_inj.mp zero)
  | free op named found cleared told =>
    exact sound.free rfl rfl found (Occupancy.cleared_of_clear_ok sound.wellFormed cleared) rfl
  | sleep op =>
    refine sound.other (by rw [Call.isMalloc, op]) (by rw [Call.isFree, op]) ?_
    intro note absurd
    rw [op] at absurd
    cases absurd
  | annotate op valid =>
    refine sound.other (by rw [Call.isMalloc, op]) (by rw [Call.isFree, op]) ?_
    intro note same
    rw [op] at same
    cases same
    exact valid

/-- A step that is not refused. -/
theorem step {h : Host σ} {palette : Palette} {index : Nat} {call : Call} {calls : List Call}
    (sound : Sound h.capacity done heap)
    (ok : (heap.step h palette index call).result = .ok calls) :
    Sound h.capacity (done ++ calls) (heap.step h palette index call).heap := by
  obtain ⟨c, heap', made, valid, rfl, bytes, live, -⟩ := step_ok ok
  -- the allocator hears of the thread first, which is none of memory's business
  have told : Sound h.capacity done { heap with host := h.setThread call.thread heap.host } :=
    sound.congr rfl rfl
  have after := (told.applied made).notes (Origin.ofCall index call) valid
  rw [List.append_assoc] at after
  exact after.congr bytes live

/-- What is collected before the first call. -/
theorem setup {h : Host σ} {host : σ} {notes : List Call}
    (ok : (setup h host).result = .ok notes) : Sound h.capacity notes (setup h host).heap := by
  obtain ⟨made, eq, valid, rfl⟩ := collect_ok ok
  cases eq
  have after := (empty h host).notes .setup valid
  exact after.congr collect_bytes collect_live

/-- Blocks, bytes and trace agree throughout a run. -/
theorem of_reaches {h : Host σ} {palette : Palette} {host : σ} {calls : List Call}
    (reaches : Reaches h palette host calls done heap) : Sound h.capacity done heap :=
  reaches_invariant (fun _ => setup) step reaches

end Sound

end Heap

end Heapscope
