import Heapscope.Trace.Digest

/-!
# Comparing traces

Two traces of equal length and equal digest count as equal.  Otherwise the calls are compared one by
one, and the first difference is reported.
-/

namespace Heapscope

/-- The first place where two traces differ; a call is absent where its trace has ended. -/
structure Divergence where
  index : Nat
  recorded : Option Call
  replayed : Option Call
deriving DecidableEq, Repr

/-- Whether two optional opacities are absent or numerically equal. -/
def sameAlpha : Option Binary64 → Option Binary64 → Bool
  | none, none => true
  | some x, some y => x.same y
  | _, _ => false

namespace Op

/-- Whether two operations are equal, opacities compared as numbers. -/
def same : Op → Op → Bool
  | annotate a, annotate b =>
    { a with alpha := none } == { b with alpha := none } && sameAlpha a.alpha b.alpha
  | a, b => a == b

end Op

namespace Call

/-- Whether two calls are equal, opacities compared as numbers. -/
def same (a b : Call) : Bool :=
  a.op.same b.op && { a with op := .sleep } == { b with op := .sleep }

/-- Whether two calls differ in their digests or as values. -/
def differs (a b : Call) : Bool := a.digest != b.digest || !a.same b

end Call

/-- The index of the first pair of calls that differ, or of the first call without a partner. -/
def firstDifference : List Call → List Call → Nat
  | a :: as, b :: bs => if a.differs b then 0 else firstDifference as bs + 1
  | _, _ => 0

namespace Trace

/-- The first place where a replayed trace differs from a recorded one. -/
def divergence? (recorded replayed : Trace) : Option Divergence :=
  let a := recorded.calls
  let b := replayed.calls
  if a.length = b.length ∧ recorded.digest = replayed.digest then none
  else
    let index := firstDifference a b
    if index = a.length ∧ index = b.length then none else some ⟨index, a[index]?, b[index]?⟩

end Trace

end Heapscope
