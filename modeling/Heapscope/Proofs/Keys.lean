import Heapscope.Call
import Mathlib.Tactic.Common

/-!
# Keys of blocks

The key of a name that is local to a thread is the number of the thread in decimal, a dash and the
name.  A number has no dash, so the first dash of a key ends the number, whatever the name holds.

* `AllocationKey.inThread_inj` -- threads and names can be told from their keys.
-/

namespace Heapscope

namespace AllocationKey

theorem toList_text_inThread (thread : ThreadId) (name : String) :
    (inThread thread name).text.toList = Nat.toDigits 10 thread.toNat ++ '-' :: name.toList := by
  show (thread.toNat.repr ++ "-" ++ name).toList = _
  rw [String.toList_append, String.toList_append, Nat.toList_repr, List.append_assoc]
  rfl

theorem isDigit_of_mem_number (thread : ThreadId) :
    ∀ c ∈ Nat.toDigits 10 thread.toNat, c.isDigit = true :=
  fun _ member => Nat.isDigit_of_mem_toDigits (by decide) (by decide) member

/-- Different names, and the same name on different threads, have different keys. -/
theorem inThread_inj {thread thread' : ThreadId} {name name' : String} :
    inThread thread name = inThread thread' name' ↔ thread = thread' ∧ name = name' := by
  constructor
  · intro same
    have chars := toList_text_inThread thread name
    rw [same, toList_text_inThread] at chars
    -- what is in front of the first character that is no digit, and what is behind it
    have number := congrArg (List.takeWhile Char.isDigit) chars
    have rest := congrArg (List.dropWhile Char.isDigit) chars
    rw [List.takeWhile_append_of_pos (isDigit_of_mem_number thread'),
      List.takeWhile_append_of_pos (isDigit_of_mem_number thread),
      List.takeWhile_cons_of_neg (by decide), List.takeWhile_cons_of_neg (by decide),
      List.append_nil, List.append_nil] at number
    rw [List.dropWhile_append_of_pos (isDigit_of_mem_number thread'),
      List.dropWhile_append_of_pos (isDigit_of_mem_number thread),
      List.dropWhile_cons_of_neg (by decide), List.dropWhile_cons_of_neg (by decide)] at rest
    refine ⟨UInt32.toNat_inj.mp ?_, String.toList_inj.mp (List.cons.inj rest).2.symm⟩
    calc thread.toNat = Nat.ofDigitChars 10 (Nat.toDigits 10 thread.toNat) 0 :=
          Nat.ofDigitChars_ten_toDigits.symm
      _ = Nat.ofDigitChars 10 (Nat.toDigits 10 thread'.toNat) 0 := by rw [number]
      _ = thread'.toNat := Nat.ofDigitChars_ten_toDigits
  · rintro ⟨rfl, rfl⟩
    rfl

/-- No key is shown as what stands for a release that names no block. -/
theorem text_ne_unnamed {key : AllocationKey}
    (shape : (∃ thread name, key = inThread thread name) ∨ ∃ a, key = address a) :
    key.text ≠ "<unnamed>" := by
  intro same
  rcases shape with ⟨thread, name, rfl⟩ | ⟨a, rfl⟩
  · have dash : '-' ∈ (inThread thread name).text.toList := by
      rw [toList_text_inThread]
      exact List.mem_append_right _ List.mem_cons_self
    rw [same] at dash
    exact absurd dash (by decide)
  · have first := congrArg String.toList same
    rw [show (address a).text = "@" ++ toString a from rfl, String.toList_append] at first
    exact absurd (List.cons.inj first).1 (by decide)

end AllocationKey

end Heapscope
