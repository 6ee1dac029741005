import Heapscope.Host.Basic
import Heapscope.OrderedMap

/-!
# Timing an allocator

A timing pass makes the allocations and releases of a call list and nothing else: no bytes are
checked and nothing is collected.  What it counts is divided by the time that it took.
-/

namespace Heapscope

/-- Makes the calls that reach the allocator: how many there were, or why one was not answered, and
the state of the allocator afterwards.  Pinned blocks and blocks that were never handed out do not
reach it; `live` holds the addresses of the others by key. -/
def timingFrom {σ : Type} (h : Host σ) (live : OrderedMap AllocationKey UInt32) (ops : Nat)
    (host : σ) : List Call → Except HostError Nat × σ
  | [] => (.ok ops, host)
  | call :: rest =>
    match call.op with
    | .malloc size none _ =>
      match h.malloc size (h.setThread call.thread host) with
      | (.error e, host) => (.error e, host)
      | (.ok returned, host) =>
        if 0 ≤ returned ∧ returned ≤ 0xffffffff then
          let address := UInt32.ofNat returned.toNatClampNeg
          let key := call.id.getD (.address address)
          timingFrom h (live.insert key address) (ops + 1) host rest
        else timingFrom h live (ops + 1) host rest
    | .free address _ =>
      let key := call.id.or (address.map .address)
      match key, key.bind live.find? with
      | some key, some address =>
        match h.free address (h.setThread call.thread host) with
        | (.error e, host) => (.error e, host)
        | (.ok (), host) => timingFrom h (live.erase key) (ops + 1) host rest
      | _, _ => timingFrom h live ops host rest
    | _ => timingFrom h live ops host rest

/-- A timing pass over calls. -/
def timing {σ : Type} (h : Host σ) (host : σ) (calls : List Call) : Except HostError Nat × σ :=
  timingFrom h .empty 0 host calls

/-- Seconds of a time in nanoseconds: the whole seconds and the rest, added as binary64 numbers. -/
def seconds (nanos : Nat) : Binary64 :=
  Binary64.ofNat (nanos / 1000000000)
    + Binary64.ofNat (nanos % 1000000000) / Binary64.ofNat 1000000000

/-- Operations per second; zero when no time passed. -/
def opsPerSecond (ops nanos : Nat) : Binary64 :=
  if Binary64.zero.lt (seconds nanos) then Binary64.ofNat ops / seconds nanos else .zero

end Heapscope
