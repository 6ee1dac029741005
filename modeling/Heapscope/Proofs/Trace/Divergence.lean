import Heapscope.Proofs.Number.Order
import Heapscope.Proofs.Trace.Encoding
import Heapscope.Trace.Divergence

/-!
# Where traces differ

Traces of one length and one digest pass for the same without a look at their calls.  The digest has
64 bits, so different traces can pass, too; but only when the digest collides.  In all other cases
the calls are compared one by one, by digest and by value, and neither test alone would do: as
values the two zeros are equal, and what is no number differs from itself.

* `digest_ne_of_byte` -- a single byte that differs shows in the digest, so the digests of two calls
  tell the two zeros apart;
* `Call.differs_eq_false_iff` -- the calls that pass for the same are the same;
* `firstDifference_spec` -- a walk through two lists stops at the first pair that differs;
* `Trace.divergence?_least` -- what a comparison of traces finds;
* `Trace.divergence?_of_collision` -- different traces that pass for the same, and a call without
  an opacity that is a number, which passes for different from itself.
-/

namespace Heapscope

/-! ## Digests -/

/-- Takes one byte into a digest. -/
def digestByte (h : UInt64) (b : UInt8) : UInt64 := (h ^^^ b.toUInt64) * 0x100000001b3

theorem digest_eq_foldl (bytes : List UInt8) :
    digest bytes = bytes.foldl digestByte 0xcbf29ce484222325 := rfl

/-- The factor is odd, so it can be divided by. -/
theorem factor_cancel {a b : UInt64} (same : a * 0x100000001b3 = b * 0x100000001b3) : a = b := by
  have inverse : (0x100000001b3 : UInt64) * 0xce965057aff6957b = 1 := by decide
  have divided := congrArg (· * (0xce965057aff6957b : UInt64)) same
  simp only [UInt64.mul_assoc, inverse, UInt64.mul_one] at divided
  exact divided

theorem digestByte_inj_left {h h' : UInt64} {b : UInt8}
    (same : digestByte h b = digestByte h' b) : h = h' := by
  have cancelled := congrArg (· ^^^ b.toUInt64) (factor_cancel same)
  simp only [UInt64.xor_assoc, UInt64.xor_self, UInt64.xor_zero] at cancelled
  exact cancelled

theorem digestByte_inj_right {h : UInt64} {b c : UInt8}
    (same : digestByte h b = digestByte h c) : b = c := by
  have cancelled := congrArg (h ^^^ ·) (factor_cancel same)
  simp only [← UInt64.xor_assoc, UInt64.xor_self, UInt64.zero_xor] at cancelled
  rw [← UInt8.toNat_inj, ← UInt8.toNat_toUInt64 b, ← UInt8.toNat_toUInt64 c, cancelled]

/-- The same bytes take different digests to different ones. -/
theorem foldl_digestByte_inj {bytes : List UInt8} {h h' : UInt64}
    (same : bytes.foldl digestByte h = bytes.foldl digestByte h') : h = h' := by
  induction bytes generalizing h h' with
  | nil => exact same
  | cons b rest ih => exact digestByte_inj_left (ih same)

/-- Byte sequences that differ in one byte have different digests. -/
theorem digest_ne_of_byte (front : List UInt8) {b c : UInt8} (ne : b ≠ c) (back : List UInt8) :
    digest (front ++ b :: back) ≠ digest (front ++ c :: back) := by
  intro same
  rw [digest_eq_foldl, digest_eq_foldl, List.foldl_append, List.foldl_append, List.foldl_cons,
    List.foldl_cons] at same
  exact ne (digestByte_inj_right (foldl_digestByte_inj same))

/-! ## Numbers that are equal as values -/

namespace Binary64

theorem eq_of_magnitude_eq_zero {x : Binary64} (zero : x.magnitude = 0) :
    x = ⟨0⟩ ∨ x = ⟨0x8000000000000000⟩ := by
  have bound := x.bits.toNat_lt
  have rest : x.bits.toNat % 2 ^ 63 = 0 := zero
  obtain ⟨bits⟩ := x
  have sign : bits.toNat = 0 ∨ bits.toNat = 2 ^ 63 := by
    show bits.toNat = 0 ∨ bits.toNat = 9223372036854775808
    change bits.toNat % 9223372036854775808 = 0 at rest
    change bits.toNat < 18446744073709551616 at bound
    omega
  rcases sign with plus | minus
  · exact .inl (congrArg mk (UInt64.toNat_inj.mp plus))
  · exact .inr (congrArg mk (UInt64.toNat_inj.mp minus))

/-- Numbers that are equal and have different bits are the two zeros, which differ in their last
byte. -/
theorem bytes_of_same {x y : Binary64} (same : x.same y = true) (ne : x ≠ y) :
    ∃ b c : UInt8, b ≠ c ∧ Encode.binary64 x = List.replicate 7 0 ++ [b] ∧
      Encode.binary64 y = List.replicate 7 0 ++ [c] := by
  obtain ⟨-, -, key⟩ := same_iff.mp same
  rcases eq_or_zero_of_key_eq key with eq | ⟨zero_x, zero_y⟩
  · exact absurd eq ne
  · rcases eq_of_magnitude_eq_zero zero_x with rfl | rfl
    · rcases eq_of_magnitude_eq_zero zero_y with rfl | rfl
      · exact absurd rfl ne
      · exact ⟨0, 0x80, by decide, by decide, by decide⟩
    · rcases eq_of_magnitude_eq_zero zero_y with rfl | rfl
      · exact ⟨0x80, 0, by decide, by decide, by decide⟩
      · exact absurd rfl ne

end Binary64

/-! ## Calls -/

namespace Call

/-- The opacity of an annotation is a number, if there is one. -/
def Numeric (c : Call) : Prop := ∀ a, c.op = .annotate a → ∀ x ∈ a.alpha, x.isNaN = false

end Call

theorem sameAlpha_cases {x y : Option Binary64} (same : sameAlpha x y = true) :
    x = y ∨ ∃ p q : Binary64, x = some p ∧ y = some q ∧ p.same q = true ∧ p ≠ q := by
  cases x with
  | none =>
    cases y with
    | none => exact .inl rfl
    | some q => cases same
  | some p =>
    cases y with
    | none => cases same
    | some q =>
      by_cases eq : p = q
      · exact .inl (congrArg some eq)
      · exact .inr ⟨p, q, rfl, rfl, same, eq⟩

theorem isNaN_of_sameAlpha {x y : Option Binary64} (same : sameAlpha x y = true) :
    ∀ p ∈ x, p.isNaN = false := by
  rintro p rfl
  cases y with
  | none => cases same
  | some q => exact (Binary64.same_iff.mp same).1

theorem sameAlpha_self {x : Option Binary64} (number : ∀ p ∈ x, p.isNaN = false) :
    sameAlpha x x = true := by
  cases x with
  | none => rfl
  | some p => exact Binary64.same_refl (number p rfl)

namespace Op

/-- Operations that are equal as values are the same, or differ in the sign of a zero. -/
theorem cases_of_same {op op' : Op} (same : op.same op' = true) :
    op = op' ∨ ∃ (a : Note) (x y : Binary64), x.same y = true ∧ x ≠ y ∧
      op = .annotate { a with alpha := some x } ∧ op' = .annotate { a with alpha := some y } := by
  cases op with
  | annotate a =>
    cases op' with
    | annotate b =>
      obtain ⟨others, alphas⟩ := Bool.and_eq_true_iff.mp same
      obtain ⟨kind, address, size, target, text, color, alpha⟩ := a
      obtain ⟨kind', address', size', target', text', color', alpha'⟩ := b
      cases (beq_iff_eq.mp others : Note.mk kind address size target text color none = _)
      rcases sameAlpha_cases alphas with eq | ⟨x, y, rfl, rfl, numbers, ne⟩
      · exact .inl (by rw [show alpha = alpha' from eq])
      · exact .inr ⟨.mk kind' address' size' target' text' color' none, x, y, numbers, ne, rfl, rfl⟩
    | malloc | free | sleep => exact .inl (beq_iff_eq.mp same)
  | malloc | free | sleep => exact .inl (beq_iff_eq.mp same)

end Op

namespace Call

variable {c d : Call}

theorem same_iff : c.same d = true ↔
    c.op.same d.op = true ∧ { c with op := .sleep } = { d with op := .sleep } := by
  unfold same
  rw [Bool.and_eq_true, beq_iff_eq]

/-- The digests of calls that differ in the sign of a zero are different. -/
theorem digest_ne_of_zeros (c : Call) (a : Note) {x y : Binary64} (same : x.same y = true)
    (ne : x ≠ y) :
    digest { c with op := .annotate { a with alpha := some x } }
      ≠ digest { c with op := .annotate { a with alpha := some y } } := by
  obtain ⟨b, b', differ, bytes_x, bytes_y⟩ := Binary64.bytes_of_same same ne
  -- all bytes in front of the last one of the opacity are the same, and so are all behind it
  let front := Encode.text "annotate" ++ (Encode.text a.kind.name ++ (Encode.word a.address
    ++ (Encode.optional Encode.word a.size ++ (Encode.optional Encode.word a.target
    ++ (Encode.optional Encode.text a.text ++ (Encode.optional Encode.color a.color
    ++ (1 :: List.replicate 7 0)))))))
  let back := Encode.key c.id ++ (Encode.optional Encode.word c.result
    ++ (Encode.word c.thread ++ (Encode.double c.time.count ++ Encode.double c.duration.count)))
  have encoded : ∀ (z : Binary64) (e : UInt8), Encode.binary64 z = List.replicate 7 0 ++ [e] →
      Encode.call { c with op := .annotate { a with alpha := some z } } = front ++ e :: back := by
    intro z e bytes
    have alpha : Encode.optional Encode.binary64 (some z) = 1 :: (List.replicate 7 0 ++ [e]) :=
      congrArg (1 :: ·) bytes
    unfold Encode.call Encode.args Encode.note
    simp only [alpha, front, back, Op.name, List.append_assoc, List.cons_append, List.nil_append]
  unfold digest
  rw [encoded x b bytes_x, encoded y b' bytes_y]
  exact digest_ne_of_byte front differ back

/-- Calls pass for the same when they are, unless their opacity is no number. -/
theorem differs_eq_false_iff : c.differs d = false ↔ c = d ∧ c.Numeric := by
  have split : c.differs d = false ↔ c.digest = d.digest ∧ c.same d = true := by
    unfold differs
    simp
  rw [split]
  constructor
  · rintro ⟨digests, same⟩
    obtain ⟨ops, frames⟩ := same_iff.mp same
    constructor
    · obtain ⟨op, id, result, thread, time, duration⟩ := c
      obtain ⟨op', id', result', thread', time', duration'⟩ := d
      cases frames
      rcases Op.cases_of_same ops with eq | ⟨a, x, y, numbers, ne, eq, eq'⟩
      · rw [show op = op' from eq]
      · cases (eq : op = _)
        cases (eq' : op' = _)
        exact absurd digests
          (digest_ne_of_zeros ⟨.sleep, id, result, thread, time, duration⟩ a numbers ne)
    · intro a op x alpha
      rw [op] at ops
      cases op' : d.op with
      | annotate b =>
        rw [op'] at ops
        exact isNaN_of_sameAlpha (Bool.and_eq_true_iff.mp ops).2 x alpha
      | malloc | free | sleep =>
        rw [op'] at ops
        cases ops
  · rintro ⟨rfl, numeric⟩
    refine ⟨rfl, same_iff.mpr ⟨?_, rfl⟩⟩
    cases op : c.op with
    | annotate a => exact Bool.and_eq_true_iff.mpr ⟨beq_self_eq_true _, sameAlpha_self (numeric a op)⟩
    | malloc | free | sleep => exact beq_self_eq_true _

end Call

/-! ## Lists of calls -/

/-- The first difference has only pairs that pass for the same in front of it, and the pair there
does not. -/
theorem firstDifference_spec (l l' : List Call) :
    (∀ i < firstDifference l l', ∃ c, l[i]? = some c ∧ l'[i]? = some c ∧ c.Numeric) ∧
      ∀ c d, l[firstDifference l l']? = some c → l'[firstDifference l l']? = some d →
        c.differs d = true := by
  fun_induction firstDifference l l' with
  | case1 c rest d rest' differ =>
    constructor
    · intro i below
      exact absurd below (Nat.not_lt_zero i)
    · intro c' d' at_c at_d
      cases at_c
      cases at_d
      exact differ
  | case2 c rest d rest' same ih =>
    obtain ⟨before, here⟩ := ih
    obtain ⟨rfl, numeric⟩ := Call.differs_eq_false_iff.mp (Bool.not_eq_true _ ▸ same)
    constructor
    · intro i below
      cases i with
      | zero => exact ⟨c, rfl, rfl, numeric⟩
      | succ i => exact before i (Nat.lt_of_succ_lt_succ below)
    · intro c' d' at_c at_d
      exact here c' d' at_c at_d
  | case3 l l' ended =>
    constructor
    · intro i below
      exact absurd below (Nat.not_lt_zero i)
    · intro c d at_c at_d
      cases l with
      | nil => cases at_c
      | cons a rest =>
        cases l' with
        | nil => cases at_d
        | cons b rest' => exact absurd rfl (ended a rest b rest' rfl)

variable {l l' : List Call}

theorem firstDifference_le :
    firstDifference l l' ≤ l.length ∧ firstDifference l l' ≤ l'.length := by
  have before := (firstDifference_spec l l').1
  constructor
  · by_contra beyond
    obtain ⟨c, at_c, -⟩ := before l.length (Nat.lt_of_not_le beyond)
    rw [List.getElem?_eq_none (Nat.le_refl _)] at at_c
    cases at_c
  · by_contra beyond
    obtain ⟨c, -, at_c, -⟩ := before l'.length (Nat.lt_of_not_le beyond)
    rw [List.getElem?_eq_none (Nat.le_refl _)] at at_c
    cases at_c

/-- Lists without a difference up to their common end are the same. -/
theorem eq_of_firstDifference (all : firstDifference l l' = l.length)
    (all' : firstDifference l l' = l'.length) : l = l' := by
  apply List.ext_getElem?
  intro i
  by_cases inside : i < firstDifference l l'
  · obtain ⟨c, at_c, at_c', -⟩ := (firstDifference_spec l l').1 i inside
    rw [at_c, at_c']
  · rw [List.getElem?_eq_none (by omega), List.getElem?_eq_none (by omega)]

/-- In front of a common end the lists differ at their first difference, unless the opacity there
is no number. -/
theorem apart_at_firstDifference
    (notEnded : ¬(firstDifference l l' = l.length ∧ firstDifference l l' = l'.length)) :
    l[firstDifference l l']? ≠ l'[firstDifference l l']? ∨
      ∃ c, l[firstDifference l l']? = some c ∧ ¬c.Numeric := by
  by_cases apart : l[firstDifference l l']? = l'[firstDifference l l']?
  · right
    cases here : l[firstDifference l l']? with
    | none =>
      obtain ⟨le, le'⟩ := @firstDifference_le l l'
      have past := List.getElem?_eq_none_iff.mp here
      have past' := List.getElem?_eq_none_iff.mp (apart ▸ here)
      exact absurd ⟨Nat.le_antisymm le past, Nat.le_antisymm le' past'⟩ notEnded
    | some c =>
      refine ⟨c, rfl, fun numeric => ?_⟩
      have differ := (firstDifference_spec l l').2 c c here (apart ▸ here)
      rw [Call.differs_eq_false_iff.mpr ⟨rfl, numeric⟩] at differ
      cases differ
  · exact .inl apart

/-! ## Traces -/

namespace Trace

/-- Traces pass for the same when they have one length and one digest.  The same trace does, and
different ones do only when the digest collides.  Otherwise the least index is found at which the
traces differ, or at which both have an annotation whose opacity is no number, with the calls there;
a call is absent where its trace has ended. -/
theorem divergence?_least (t t' : Trace) :
    (t.divergence? t' = none ↔ t.calls.length = t'.calls.length ∧ t.digest = t'.digest) ∧
    (t = t' → t.divergence? t' = none) ∧
    (t.divergence? t' = none → t ≠ t' → t.Short → t'.Short →
      Encode.calls t.calls ≠ Encode.calls t'.calls ∧
        Heapscope.digest (Encode.calls t.calls) = Heapscope.digest (Encode.calls t'.calls)) ∧
    ∀ d, t.divergence? t' = some d →
      d.recorded = t.calls[d.index]? ∧ d.replayed = t'.calls[d.index]? ∧
      (d.recorded ≠ d.replayed ∨ ∃ c, d.recorded = some c ∧ ¬c.Numeric) ∧
      ∀ i < d.index, ∃ c, t.calls[i]? = some c ∧ t'.calls[i]? = some c ∧ c.Numeric := by
  have passes : t.divergence? t' = none
      ↔ t.calls.length = t'.calls.length ∧ t.digest = t'.digest := by
    unfold divergence?
    constructor
    · intro none_found
      by_contra differ
      rw [if_neg differ] at none_found
      simp only at none_found
      split at none_found
      · rename_i ends
        have calls := eq_of_firstDifference ends.1 ends.2
        exact differ ⟨by rw [calls], by rw [digest, digest, calls]⟩
      · cases none_found
    · intro same
      rw [if_pos same]
  refine ⟨passes, ?same, ?collides, ?found⟩
  case same =>
    rintro rfl
    exact passes.mpr ⟨rfl, rfl⟩
  case collides =>
    intro none_found differ short short'
    refine ⟨fun bytes => ?_, (passes.mp none_found).2⟩
    have calls := Encode.calls_inj short short' bytes
    cases t
    cases t'
    cases calls
    exact differ rfl
  case found =>
    intro d found
    unfold divergence? at found
    simp only at found
    split at found
    · cases found
    · split at found
      · cases found
      · rename_i notEnded
        cases found
        exact ⟨rfl, rfl, apart_at_firstDifference notEnded, (firstDifference_spec _ _).1⟩

/-- A trace of one block. -/
def ofBlock (size address : UInt32) : Trace where
  calls := [⟨.malloc size none none, none, some address, 0, ⟨0⟩, ⟨500000⟩⟩]
  inOrder := .cons (by simp) .nil

/-- A highlight whose opacity is no number, and a sleep behind it. -/
def ofOpacityless (duration : UInt64) : Trace where
  calls :=
    [⟨.annotate { Note.bare (.add .range) 0 with size := some 1, alpha := some .nan }, none, none, 0,
        ⟨0⟩, ⟨0⟩⟩,
      ⟨.sleep, none, none, 0, ⟨1⟩, ⟨duration⟩⟩]
  inOrder := inOrder_of_firstUnsortedFrom (show firstUnsortedFrom 0 _ = none from rfl)

/-- Two traces with blocks of different sizes at different addresses pass for the same, since their
digests collide; and traces that differ in their second call only are said to differ in the first,
whose opacity is no number. -/
theorem divergence?_of_collision :
    (ofBlock 615896731 908868099 ≠ ofBlock 828038078 2148524803 ∧
      (ofBlock 615896731 908868099).divergence? (ofBlock 828038078 2148524803) = none) ∧
    (ofOpacityless 1).calls[0]? = (ofOpacityless 2).calls[0]? ∧
      ((ofOpacityless 1).divergence? (ofOpacityless 2)).map Divergence.index = some 0 := by
  decide +kernel

end Trace

end Heapscope
