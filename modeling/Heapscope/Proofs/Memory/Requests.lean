import Heapscope.Proofs.Memory.Checked
import Mathlib.Order.Bounds.Basic
import Mathlib.Order.Interval.Finset.Nat

/-!
# Occupancies as sets of bytes

An occupancy is asked to mark and to clear spans, and grants some of these requests.  Whatever was
asked of it, it is the set of bytes that the granted requests make: it grants a request when no byte
of the span stands against it, and otherwise names the least that does; its counter is the size of
the set, and its peak the greatest byte that was ever in it.

* `Request`, `Occupancy.attempt`, `Occupancy.granted` -- what is asked, what comes of it, and which
  requests are granted;
* `bytesAfter`, `everUsed` -- the set that granted requests make, and all bytes that were in it;
* `Occupancy.Represents.answer`, `Occupancy.Represents.attempt?_eq` -- one request;
* `Occupancy.represents_after` -- any number of requests;
* `occupancy_is_set` -- how an occupancy behaves after any requests.
-/

namespace Heapscope

/-- What may be asked of an occupancy: that a span be marked, or be cleared. -/
inductive Request where
  | mark (address size : UInt32)
  | clear (address size : UInt32)
deriving DecidableEq, Repr

namespace Request

def address : Request → UInt32
  | mark address _ | clear address _ => address

def size : Request → UInt32
  | mark _ size | clear _ size => size

/-- The byte behind the span. -/
def stop (r : Request) : Nat := r.address.toNat + r.size.toNat

/-- The bytes of the span. -/
def span (r : Request) : Finset Nat := Finset.Ico r.address.toNat r.stop

/-- The bytes that stand against a request: a byte that is marked must not be in use, and one that
is cleared must be. -/
def obstacles (used : Finset Nat) : Request → Finset Nat
  | r@(mark ..) => r.span ∩ used
  | r@(clear ..) => r.span \ used

/-- The refusal for a byte that stands against a request. -/
def fault (b : UInt32) : Request → OccupancyFault
  | mark .. => .inUse b
  | clear .. => .unused b

/-- The bytes in use when a request has been granted. -/
def applyTo (used : Finset Nat) : Request → Finset Nat
  | r@(mark ..) => used ∪ r.span
  | r@(clear ..) => used \ r.span

/-- The bytes that a request takes into use. -/
def taken : Request → Finset Nat
  | r@(mark ..) => r.span
  | clear .. => ∅

theorem fault_inj {b c : UInt32} (r : Request) (same : r.fault b = r.fault c) : b = c := by
  cases r with
  | mark => exact OccupancyFault.inUse.inj same
  | clear => exact OccupancyFault.unused.inj same

theorem fault_ne_outside {address size capacity : UInt32} (r : Request) (b : UInt32) :
    r.fault b ≠ .outside address size capacity := by
  cases r with
  | mark => exact OccupancyFault.noConfusion
  | clear => exact OccupancyFault.noConfusion

theorem mem_span {r : Request} {b : Nat} : b ∈ r.span ↔ r.address.toNat ≤ b ∧ b < r.stop :=
  Finset.mem_Ico

theorem card_span (r : Request) : r.span.card = r.size.toNat := by
  unfold span stop
  rw [Nat.card_Ico]
  omega

theorem mem_taken_mark {a n : UInt32} {b : Nat} :
    b ∈ (mark a n).taken ↔ a.toNat ≤ b ∧ b < a.toNat + n.toNat :=
  mem_span

theorem mem_obstacles_mark {used : Finset Nat} {a n : UInt32} {b : Nat} :
    b ∈ (mark a n).obstacles used ↔ (a.toNat ≤ b ∧ b < a.toNat + n.toNat) ∧ b ∈ used :=
  Finset.mem_inter.trans (and_congr_left' mem_span)

theorem mem_obstacles_clear {used : Finset Nat} {a n : UInt32} {b : Nat} :
    b ∈ (clear a n).obstacles used ↔ (a.toNat ≤ b ∧ b < a.toNat + n.toNat) ∧ b ∉ used :=
  Finset.mem_sdiff.trans (and_congr_left' mem_span)

theorem mem_applyTo_mark {used : Finset Nat} {a n : UInt32} {b : Nat} :
    b ∈ (mark a n).applyTo used ↔ b ∈ used ∨ (a.toNat ≤ b ∧ b < a.toNat + n.toNat) :=
  Finset.mem_union.trans (or_congr_right mem_span)

theorem mem_applyTo_clear {used : Finset Nat} {a n : UInt32} {b : Nat} :
    b ∈ (clear a n).applyTo used ↔ b ∈ used ∧ ¬(a.toNat ≤ b ∧ b < a.toNat + n.toNat) :=
  Finset.mem_sdiff.trans (and_congr_right' (not_congr mem_span))

end Request

/-- The bytes in use when requests have been granted. -/
def bytesAfter (done : List Request) : Finset Nat := done.foldl Request.applyTo ∅

/-- The bytes that were ever in use when requests have been granted. -/
def everUsed (done : List Request) : Finset Nat := done.foldl (fun ever r => ever ∪ r.taken) ∅

namespace Occupancy

/-- What comes of a request: the reply, and the occupancy afterwards. -/
def attempt (o : Occupancy) : Request → Except OccupancyFault Unit × Occupancy
  | .mark address size => o.settle (o.mark address size)
  | .clear address size => o.settle (o.clear address size)

/-- The same by arithmetic that must stay in range. -/
def attempt? (o : Occupancy) : Request → Option (Except OccupancyFault Unit × Occupancy)
  | .mark address size => o.mark? address size
  | .clear address size => o.clear? address size

/-- The occupancy after requests, granted or not. -/
def after (o : Occupancy) (requests : List Request) : Occupancy :=
  requests.foldl (fun o r => (o.attempt r).2) o

/-- The requests that are granted. -/
def granted (o : Occupancy) : List Request → List Request
  | [] => []
  | r :: rest =>
    match o.attempt r with
    | (.ok (), o) => r :: granted o rest
    | (.error _, o) => granted o rest

/-! ## The set of bytes -/

theorem bytesAfter_concat (done : List Request) (r : Request) :
    bytesAfter (done ++ [r]) = r.applyTo (bytesAfter done) := by
  unfold bytesAfter
  rw [List.foldl_append]
  rfl

theorem everUsed_concat (done : List Request) (r : Request) :
    everUsed (done ++ [r]) = everUsed done ∪ r.taken := by
  unfold everUsed
  rw [List.foldl_append]
  rfl

/-- The greatest of some bytes; there is none of no bytes. -/
def IsPeak (bytes : Finset Nat) : Option UInt32 → Prop
  | none => bytes = ∅
  | some p => IsGreatest (bytes : Set Nat) p.toNat

/-- The peak when a span that is not empty is taken into use. -/
theorem IsPeak.union {ever : Finset Nat} {peak : Option UInt32} (isPeak : IsPeak ever peak)
    {start last : UInt32} (le : start.toNat ≤ last.toNat) :
    IsPeak (ever ∪ Finset.Icc start.toNat last.toNat) (some (peak.elim last (max last))) := by
  have top : IsGreatest (↑(Finset.Icc start.toNat last.toNat) : Set Nat) last.toNat := by
    rw [Finset.coe_Icc]
    exact isGreatest_Icc le
  cases peak with
  | none =>
    have none_ever : ever = ∅ := isPeak
    rw [none_ever, Finset.empty_union]
    exact top
  | some p =>
    have larger : (max last p).toNat = max p.toNat last.toNat := by
      rw [UInt32.toNat_max, max_comm]
    show IsGreatest (↑(ever ∪ Finset.Icc start.toNat last.toNat) : Set Nat) (max last p).toNat
    rw [Finset.coe_union, larger]
    exact IsGreatest.union isPeak top

/-- An occupancy is the set of bytes that granted requests make. -/
structure Represents (o : Occupancy) (capacity : UInt32) (done : List Request) : Prop where
  wellFormed : o.WellFormed
  capacity_eq : o.capacity = capacity
  holds_iff : ∀ b, o.Holds b ↔ b ∈ bytesAfter done
  occupied_eq : o.occupied = (bytesAfter done).card
  isPeak : IsPeak (everUsed done) o.peak

variable {o o' : Occupancy} {capacity a n : UInt32} {done : List Request}

theorem represents_empty (capacity : UInt32) : (empty capacity).Represents capacity [] where
  wellFormed := wellFormed_empty capacity
  capacity_eq := rfl
  holds_iff b := iff_of_false (not_holds_empty capacity b) (Finset.notMem_empty b)
  occupied_eq := rfl
  isPeak := rfl

namespace Represents

theorem inside (rep : o.Represents capacity done) :
    bytesAfter done ⊆ Finset.range capacity.toNat := by
  intro b member
  rw [Finset.mem_range, ← rep.capacity_eq]
  exact ((rep.holds_iff b).mpr member).1

/-- The bytes of an address space are as many as a counter counts. -/
theorem occupied_lt (rep : o.Represents capacity done) : o.occupied < 2 ^ 32 := by
  have card := Finset.card_le_card rep.inside
  have bound := capacity.toNat_lt
  rw [Finset.card_range] at card
  rw [rep.occupied_eq]
  omega

theorem marked (rep : o.Represents capacity done) (marked : o.Marked a n o') :
    o'.Represents capacity (done ++ [.mark a n]) where
  wellFormed := marked.wellFormed
  capacity_eq := marked.capacity.trans rep.capacity_eq
  holds_iff b := by
    rw [marked.holds, rep.holds_iff, bytesAfter_concat, Request.mem_applyTo_mark]
  occupied_eq := by
    have apart : Disjoint (bytesAfter done) (Request.mark a n).span := by
      rw [Finset.disjoint_right]
      intro b member held
      obtain ⟨le, lt⟩ := Request.mem_span.mp member
      exact marked.free b le lt ((rep.holds_iff b).mpr held)
    have card := Finset.card_union_of_disjoint apart
    rw [Request.card_span] at card
    rw [marked.occupied, rep.occupied_eq, bytesAfter_concat]
    exact card.symm
  isPeak := by
    have bound := marked.fits
    have small := o.capacity.toNat_lt
    rw [marked.peak, everUsed_concat]
    by_cases empty : n = 0
    · have taken : (Request.mark a n).taken = ∅ := by
        rw [empty]
        exact Finset.Ico_self _
      rw [if_pos empty, taken, Finset.union_empty]
      exact rep.isPeak
    · have positive : n.toNat ≠ 0 := fun zero => empty (UInt32.toNat_inj.mp zero)
      have stop : (a + n).toNat = a.toNat + n.toNat := Exact.toNat_add (by omega)
      have last : (a + n - 1).toNat = a.toNat + n.toNat - 1 := by
        rw [Exact.toNat_sub (by rw [stop, UInt32.toNat_one]; omega), stop, UInt32.toNat_one]
      have taken : (Request.mark a n).taken = Finset.Icc a.toNat (a + n - 1).toNat := by
        ext b
        rw [Finset.mem_Icc, last]
        rw [Request.mem_taken_mark]
        omega
      rw [if_neg empty, taken]
      exact rep.isPeak.union (by omega)

/-- What is cleared was in use. -/
theorem span_subset (rep : o.Represents capacity done) (cleared : o.Cleared a n o') :
    (Request.clear a n).span ⊆ bytesAfter done := by
  intro b member
  obtain ⟨le, lt⟩ := Request.mem_span.mp member
  exact (rep.holds_iff b).mp (cleared.used b le lt)

theorem cleared (rep : o.Represents capacity done) (cleared : o.Cleared a n o') :
    o'.Represents capacity (done ++ [.clear a n]) where
  wellFormed := cleared.wellFormed
  capacity_eq := cleared.capacity.trans rep.capacity_eq
  holds_iff b := by
    rw [cleared.holds, rep.holds_iff, bytesAfter_concat, Request.mem_applyTo_clear]
  occupied_eq := by
    have card := Finset.card_sdiff_of_subset (rep.span_subset cleared)
    rw [Request.card_span] at card
    rw [cleared.occupied, rep.occupied_eq, bytesAfter_concat]
    exact card.symm
  isPeak := by
    have ever := (Finset.union_empty (everUsed done)).symm
    rw [cleared.peak, everUsed_concat]
    exact ever ▸ rep.isPeak

end Represents

/-! ## One request -/

/-- How a request is answered when the granted requests before it have made a set of bytes. -/
inductive Answer (o : Occupancy) (capacity : UInt32) (done : List Request) (r : Request) :
    Except OccupancyFault Unit × Occupancy → Prop where
  | granted {o' : Occupancy} (fits : r.stop ≤ capacity.toNat)
      (free : r.obstacles (bytesAfter done) = ∅) (rep : o'.Represents capacity (done ++ [r])) :
      Answer o capacity done r (.ok (), o')
  | refused {b : UInt32} (fits : r.stop ≤ capacity.toNat)
      (least : IsLeast (r.obstacles (bytesAfter done) : Set Nat) b.toNat) :
      Answer o capacity done r (.error (r.fault b), o)
  | outside (beyond : capacity.toNat < r.stop) :
      Answer o capacity done r (.error (.outside r.address r.size capacity), o)

/-- The refusal that names a byte is the one for the least byte that stands against the request. -/
theorem Answer.of_least {r : Request} {b : Nat} (fits : r.stop ≤ capacity.toNat) (lt : b < r.stop)
    (member : b ∈ r.obstacles (bytesAfter done))
    (least : ∀ c < b, c ∉ r.obstacles (bytesAfter done)) :
    Answer o capacity done r (.error (r.fault (UInt32.ofNat b)), o) := by
  have small : b < 2 ^ 32 := Nat.lt_trans (Nat.lt_of_lt_of_le lt fits) capacity.toNat_lt
  have value : (UInt32.ofNat b).toNat = b := UInt32.toNat_ofNat_of_lt' small
  refine .refused fits ⟨value.symm ▸ member, ?_⟩
  intro c stands
  rw [value]
  exact Nat.le_of_not_lt fun before => least c before stands

theorem Represents.answer_mark (rep : o.Represents capacity done) (a n : UInt32) :
    Answer o capacity done (.mark a n) (o.settle (o.mark a n)) := by
  rcases mark_verdict rep.wellFormed a n with
    ⟨o', ok, marked⟩ | ⟨error, beyond⟩ | ⟨b, error, fits, le, lt, held, least⟩
  · rw [ok]
    refine .granted (rep.capacity_eq ▸ marked.fits) ?_ (rep.marked marked)
    rw [Finset.eq_empty_iff_forall_notMem]
    intro b member
    obtain ⟨⟨le, lt⟩, used⟩ := Request.mem_obstacles_mark.mp member
    exact marked.free b le lt ((rep.holds_iff b).mpr used)
  · rw [error, rep.capacity_eq]
    exact .outside (rep.capacity_eq ▸ beyond)
  · have used := (rep.holds_iff b).mp held
    rw [error]
    refine .of_least (rep.capacity_eq ▸ fits) lt
      (Request.mem_obstacles_mark.mpr ⟨⟨le, lt⟩, used⟩) ?_
    intro c before member
    obtain ⟨⟨below, -⟩, used⟩ := Request.mem_obstacles_mark.mp member
    exact least c below before ((rep.holds_iff c).mpr used)

theorem Represents.answer_clear (rep : o.Represents capacity done) (a n : UInt32) :
    Answer o capacity done (.clear a n) (o.settle (o.clear a n)) := by
  rcases clear_verdict rep.wellFormed a n with
    ⟨o', ok, cleared⟩ | ⟨error, beyond⟩ | ⟨b, error, fits, le, lt, free, least⟩
  · rw [ok]
    refine .granted (rep.capacity_eq ▸ cleared.fits) ?_ (rep.cleared cleared)
    rw [Finset.eq_empty_iff_forall_notMem]
    intro b member
    obtain ⟨⟨le, lt⟩, unused⟩ := Request.mem_obstacles_clear.mp member
    exact unused ((rep.holds_iff b).mp (cleared.used b le lt))
  · rw [error, rep.capacity_eq]
    exact .outside (rep.capacity_eq ▸ beyond)
  · have unused : b ∉ bytesAfter done := fun used => free ((rep.holds_iff b).mpr used)
    rw [error]
    refine .of_least (rep.capacity_eq ▸ fits) lt
      (Request.mem_obstacles_clear.mpr ⟨⟨le, lt⟩, unused⟩) ?_
    intro c before member
    obtain ⟨⟨below, -⟩, unused⟩ := Request.mem_obstacles_clear.mp member
    exact unused ((rep.holds_iff c).mp (least c below before))

/-- A request is granted when it fits and no byte stands against it; otherwise the least byte that
does is named, and nothing changes. -/
theorem Represents.answer (rep : o.Represents capacity done) (r : Request) :
    Answer o capacity done r (o.attempt r) := by
  cases r with
  | mark a n => exact rep.answer_mark a n
  | clear a n => exact rep.answer_clear a n

/-- The counter neither passes its limit nor falls below zero. -/
theorem Represents.attempt?_eq (rep : o.Represents capacity done) (r : Request) :
    o.attempt? r = some (o.attempt r) := by
  cases r with
  | mark a n =>
    refine mark?_eq rep.wellFormed ?_
    intro o' ok
    exact (rep.marked (marked_of_mark_ok rep.wellFormed ok)).occupied_lt
  | clear a n =>
    refine clear?_eq rep.wellFormed ?_
    intro o' ok
    have card := Finset.card_le_card (rep.span_subset (cleared_of_clear_ok rep.wellFormed ok))
    rw [Request.card_span, ← rep.occupied_eq] at card
    exact card

/-! ## Any number of requests -/

/-- By induction on the requests: each either adds itself to those that were granted, or leaves the
occupancy as it is. -/
theorem Represents.after (rep : o.Represents capacity done) (requests : List Request) :
    (o.after requests).Represents capacity (done ++ o.granted requests) := by
  induction requests generalizing o done with
  | nil =>
    rw [granted, List.append_nil]
    exact rep
  | cons r rest ih =>
    have answer := rep.answer r
    show ((o.attempt r).2.after rest).Represents capacity (done ++ o.granted (r :: rest))
    rw [granted]
    generalize o.attempt r = result at answer ⊢
    cases answer with
    | granted fits free next => exact List.append_cons .. ▸ ih next
    | refused fits least => exact ih rep
    | outside beyond => exact ih rep

theorem represents_after (capacity : UInt32) (requests : List Request) :
    ((empty capacity).after requests).Represents capacity ((empty capacity).granted requests) :=
  (represents_empty capacity).after requests

/-! ## How it behaves -/

/-- An occupancy behaves as the set `used` of bytes, when `ever` are the bytes that were ever in the
set. -/
structure Behaves (o : Occupancy) (capacity : UInt32) (used ever : Finset Nat) : Prop where
  /-- A request is refused as a whole when its span does not fit. -/
  outside_iff : ∀ r, (o.attempt r).1 = .error (.outside r.address r.size capacity)
    ↔ capacity.toNat < r.stop
  /-- Otherwise it is refused for the least byte that stands against it. -/
  refused_iff : ∀ r b, (o.attempt r).1 = .error (r.fault b)
    ↔ r.stop ≤ capacity.toNat ∧ IsLeast (r.obstacles used : Set Nat) b.toNat
  /-- It is granted when there is no such byte. -/
  granted_iff : ∀ r, (o.attempt r).1 = .ok () ↔ r.stop ≤ capacity.toNat ∧ r.obstacles used = ∅
  /-- A request that is granted adds or removes the bytes of its span. -/
  granted : ∀ r, (o.attempt r).1 = .ok () →
    ∀ b : UInt32, (o.attempt r).2.isMarked b = true ↔ b.toNat ∈ r.applyTo used
  /-- A request that is refused changes nothing. -/
  refused : ∀ r e, (o.attempt r).1 = .error e → (o.attempt r).2 = o
  isMarked_iff : ∀ b : UInt32, o.isMarked b = true ↔ b.toNat ∈ used
  inside : used ⊆ Finset.range capacity.toNat
  occupied_eq : o.occupied = used.card
  isPeak : IsPeak ever o.peak
  /-- Arithmetic stays in range in every further request. -/
  attempt_in_range : ∀ r, o.attempt? r = some (o.attempt r)
  isMarked_in_range : ∀ b, o.isMarked? b = some (o.isMarked b)

theorem Represents.mem_iff_isMarked (rep : o.Represents capacity done) (b : UInt32) :
    o.isMarked b = true ↔ b.toNat ∈ bytesAfter done :=
  isMarked_iff.trans (rep.holds_iff b.toNat)

namespace Answer

variable {r : Request} {result : Except OccupancyFault Unit × Occupancy}

theorem outside_iff (answer : Answer o capacity done r result) :
    result.1 = .error (.outside r.address r.size capacity) ↔ capacity.toNat < r.stop := by
  cases answer with
  | granted fits => exact iff_of_false nofun (Nat.not_lt.mpr fits)
  | refused fits =>
    refine iff_of_false ?_ (Nat.not_lt.mpr fits)
    exact fun same => r.fault_ne_outside _ (Except.error.inj same)
  | outside beyond => exact iff_of_true rfl beyond

theorem refused_iff (answer : Answer o capacity done r result) (b : UInt32) :
    result.1 = .error (r.fault b)
      ↔ r.stop ≤ capacity.toNat ∧ IsLeast (r.obstacles (bytesAfter done) : Set Nat) b.toNat := by
  cases answer with
  | granted fits free =>
    refine iff_of_false nofun ?_
    rintro ⟨-, least⟩
    exact Finset.notMem_empty _ (free ▸ least.1)
  | refused fits least =>
    constructor
    · intro same
      rw [← r.fault_inj (Except.error.inj same)]
      exact ⟨fits, least⟩
    · rintro ⟨-, least'⟩
      rw [UInt32.toNat_inj.mp (least.unique least')]
  | outside beyond =>
    refine iff_of_false ?_ fun h => Nat.not_lt.mpr h.1 beyond
    exact fun same => r.fault_ne_outside b (Except.error.inj same.symm)

theorem granted_iff (answer : Answer o capacity done r result) :
    result.1 = .ok () ↔ r.stop ≤ capacity.toNat ∧ r.obstacles (bytesAfter done) = ∅ := by
  cases answer with
  | granted fits free => exact iff_of_true rfl ⟨fits, free⟩
  | refused fits least =>
    refine iff_of_false nofun ?_
    rintro ⟨-, free⟩
    exact Finset.notMem_empty _ (free ▸ least.1)
  | outside beyond => exact iff_of_false nofun fun h => Nat.not_lt.mpr h.1 beyond

theorem isMarked_of_ok (answer : Answer o capacity done r result) (ok : result.1 = .ok ())
    (b : UInt32) : result.2.isMarked b = true ↔ b.toNat ∈ r.applyTo (bytesAfter done) := by
  cases answer with
  | granted fits free next => rw [next.mem_iff_isMarked, bytesAfter_concat]
  | refused => cases ok
  | outside => cases ok

theorem eq_of_error (answer : Answer o capacity done r result) {e : OccupancyFault}
    (error : result.1 = .error e) : result.2 = o := by
  cases answer with
  | granted => cases error
  | refused => rfl
  | outside => rfl

end Answer

theorem Represents.behaves (rep : o.Represents capacity done) :
    o.Behaves capacity (bytesAfter done) (everUsed done) where
  outside_iff r := (rep.answer r).outside_iff
  refused_iff r b := (rep.answer r).refused_iff b
  granted_iff r := (rep.answer r).granted_iff
  granted r ok b := (rep.answer r).isMarked_of_ok ok b
  refused r _ error := (rep.answer r).eq_of_error error
  isMarked_iff := rep.mem_iff_isMarked
  inside := rep.inside
  occupied_eq := rep.occupied_eq
  isPeak := rep.isPeak
  attempt_in_range := rep.attempt?_eq
  isMarked_in_range := isMarked?_eq rep.wellFormed

end Occupancy

/-- Whatever was asked of an address space, it behaves as the set of bytes that the granted requests
make. -/
theorem occupancy_is_set (capacity : UInt32) (requests : List Request) :
    let granted := (Occupancy.empty capacity).granted requests
    ((Occupancy.empty capacity).after requests).Behaves capacity (bytesAfter granted)
      (everUsed granted) :=
  (Occupancy.represents_after capacity requests).behaves

end Heapscope
