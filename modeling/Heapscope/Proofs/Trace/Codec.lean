import Heapscope.Proofs.Json.Documents
import Heapscope.Proofs.Wire.Calls
import Heapscope.Proofs.Wire.Times

/-!
# Traces that are read as they were written

A trace is written on one line, or indented into a file.  Both texts are read back as the trace,
call by call and field by field, whatever the operations, the names and the labels are, as long as
the numbers survive: the times, the durations and the opacities.

Times that do not survive are a matter of order, too: two calls may be read at one time, and then
their threads decide.  Up to `Micros.exactLimit` this does not happen; right behind it does.

* `Call.listOfText_compact`, `Call.listOfText_fileText` -- a reader of either text reads the calls;
* `Trace.ofText_written` -- both texts of a trace are read as the trace;
* `Trace.times_on_wire` -- what the wire does to times, and so to the order of calls;
* `Trace.times_moved_on_wire` -- the first time that moves, and a file that is not read back.
-/

namespace Heapscope

namespace Call

theorem listOfText_compact (calls : List Call) : listOfText (listToJson calls).compact
    = Json.readArray ofJson Json.depthLimit (listToJson calls) :=
  Json.readText_compact (printable_listToJson calls) _

theorem listOfText_fileText (calls : List Call) : listOfText (fileText calls)
    = Json.readArray ofJson Json.depthLimit (listToJson calls) :=
  Json.readText_pretty (printable_listToJson calls) _

end Call

namespace Trace

/-! ## Traces whose numbers survive -/

theorem ofText_of_listOfText {text : String} {t : Trace}
    (read : Call.listOfText text = .ok t.calls) : ofText text = .ok t := by
  unfold ofText
  rw [read]
  show (ofCalls? t.calls).mapError Fault.invalid = _
  rw [ofCalls?_of_inOrder t.inOrder]
  rfl

/-- A trace whose numbers survive is read as it was written, on one line or in a file: with the same
calls in the same order, and so with the same digest. -/
theorem ofText_written (t : Trace) (survive : ∀ c ∈ t.calls, c.Survives) :
    ofText t.compact = .ok t ∧ ofText t.pretty = .ok t := by
  have read := Call.readArray_listToJson 125 survive
  constructor
  · exact ofText_of_listOfText ((Call.listOfText_compact t.calls).trans read)
  · exact ofText_of_listOfText ((Call.listOfText_fileText t.calls).trans read)

/-- A pinned block with a name that needs escapes, a label with an opacity, a release by address
that says it returned something, and a sleep that says it has a block. -/
def mixed : Trace where
  calls :=
    [⟨.malloc 8 (some 16) (some ⟨0xff8800, by decide⟩), some (.named "\"a\\b\"\n\u0001é"), some 16,
        1, ⟨0⟩, ⟨1500⟩⟩,
      ⟨.annotate ⟨.add .text, 16, some 8, some 0, some "], [3", some ⟨7, by decide⟩, some .half⟩,
        none, none, 1, ⟨0⟩, ⟨0⟩⟩,
      ⟨.free (some 16) none, some (.address 16), some 0, 2, ⟨1500⟩, ⟨1⟩⟩,
      ⟨.sleep, some (.named ""), some 5, 0, ⟨2000001⟩, ⟨333⟩⟩]
  inOrder := by unfold InOrder; decide

theorem ofText_written_of_mixed : (∀ c ∈ mixed.calls, c.Survives) ∧
    ofText mixed.compact = .ok mixed ∧ ofText mixed.pretty = .ok mixed := by
  have half : Binary64.half.Survives :=
    Binary64.survives_iff.mpr ⟨⟨false, 0, [5], none⟩, by decide +kernel, by decide +kernel⟩
  have survive : ∀ c ∈ mixed.calls, c.Survives := by
    have op : ∀ c ∈ mixed.calls, c.op.Survives := by
      simp [mixed, Op.Survives, Note.Survives, half]
    have time : ∀ c ∈ mixed.calls, c.time.count.toNat ≤ Micros.exactLimit := by decide
    have duration : ∀ c ∈ mixed.calls, c.duration.count.toNat ≤ Micros.exactLimit := by decide
    exact fun c member =>
      ⟨op c member, Micros.survives (time c member), Micros.survives (duration c member)⟩
  exact ⟨survive, ofText_written mixed survive⟩

/-! ## Times and their order -/

/-- Calls whose times survive are in order after reading, whatever else becomes of them. -/
theorem ofText_pretty_sorted (t : Trace) (times : ∀ c ∈ t.calls, c.time.Survives) (index : Nat) :
    ofText t.pretty ≠ .error (.invalid (.unsorted index)) := by
  intro unsorted
  unfold ofText at unsorted
  rw [show Call.listOfText t.pretty = _ from Call.listOfText_fileText t.calls] at unsorted
  cases read : Json.readArray Call.ofJson Json.depthLimit (Call.listToJson t.calls) with
  | error e =>
    rw [read] at unsorted
    cases unsorted
  | ok calls =>
    have starts := Call.readArray_listToJson_ok 125 times read
    rw [read] at unsorted
    change (ofCalls? calls).mapError Fault.invalid = _ at unsorted
    rw [ofCalls?_of_inOrder (inOrder_of_starts t.inOrder starts)] at unsorted
    cases unsorted

/-- What the wire does to times.  Up to the limit a time is what its milliseconds stand for, and it
is read from its text.  Every time is read as some time, no later one as an earlier one, and a time
up to the limit stays in front of every later one.  So a file of calls that start up to the limit is
never refused for its order, whatever their threads, operations and durations are. -/
theorem times_on_wire (a b : Micros) (t : Trace) :
    (a.count.toNat ≤ Micros.exactLimit → Micros.ofMillis? a.millis = some a ∧
      Json.readText (fun _ => Micros.ofJson) a.toJson.compact = .ok a) ∧
    (a ≤ b → ∃ a' b', Micros.ofMillis? a.millis = some a' ∧ Micros.ofMillis? b.millis = some b' ∧
      a' ≤ b' ∧ (a < b → a.count.toNat ≤ Micros.exactLimit → a' < b')) ∧
    ((∀ c ∈ t.calls, c.time.count.toNat ≤ Micros.exactLimit) →
      ∀ index, ofText t.pretty ≠ .error (.invalid (.unsorted index))) := by
  refine ⟨fun le => ⟨Micros.ofMillis?_millis le, ?text⟩, fun le => ?order, fun times => ?sorted⟩
  case text =>
    exact (Json.readText_compact a.millis.printable_toJson _).trans (Micros.survives le).read
  case order =>
    obtain ⟨a', b', read_a, read_b, le'⟩ := Micros.ofMillis?_mono le
    refine ⟨a', b', read_a, read_b, le', fun lt exact_a => ?_⟩
    obtain ⟨later, read_later, lt'⟩ := Micros.ofMillis?_lt exact_a lt
    cases read_a.symm.trans (Micros.ofMillis?_millis exact_a)
    cases read_later.symm.trans read_b
    exact lt'
  case sorted =>
    exact ofText_pretty_sorted t fun c member => Micros.survives (times c member)

theorem times_on_wire_of_limit :
    Micros.ofMillis? (Micros.millis ⟨4398046511104020⟩) = some ⟨4398046511104020⟩ ∧
      ∀ index, ofText mixed.pretty ≠ .error (.invalid (.unsorted index)) := by
  obtain ⟨exact_limit, -, sorted⟩ :=
    times_on_wire ⟨4398046511104020⟩ ⟨4398046511104020⟩ mixed
  exact ⟨(exact_limit (by decide)).1, sorted (by decide)⟩

/-- Two sleeps one microsecond apart, thirty microseconds behind `2 ^ 42` milliseconds. -/
def lateSleeps : Trace where
  calls :=
    [⟨.sleep, none, none, 1, ⟨4398046511104030⟩, ⟨0⟩⟩,
      ⟨.sleep, none, none, 0, ⟨4398046511104031⟩, ⟨0⟩⟩]
  inOrder := by unfold InOrder; decide

/-- Behind the limit a time may be read as the next one, and so as one time with a later call. -/
theorem times_moved_on_wire :
    Micros.ofMillis? (Micros.millis ⟨4398046511104021⟩) = some ⟨4398046511104022⟩ ∧
      ofText lateSleeps.pretty = .error (.invalid (.unsorted 1)) := by
  refine ⟨by decide +kernel, ?_⟩
  unfold ofText
  rw [show Call.listOfText lateSleeps.pretty = _ from Call.listOfText_fileText lateSleeps.calls]
  decide +kernel

end Trace

end Heapscope
