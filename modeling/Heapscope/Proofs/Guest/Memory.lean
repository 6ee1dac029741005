import Heapscope.Guest.Code
import Mathlib.Tactic.Common

/-!
# Words in linear memory

A word lies in four bytes of a guest's memory, lowest first.  Reading one after it was written gives
it back, and whatever is written elsewhere leaves it alone.

* `wordOfBytes_bytesOfWord` -- the bytes of a word make up the word;
* `LinearMemory.word` -- the word at an address, and what a write or a fill makes of it;
* `Code.run_bind` -- code that goes on with a result;
* `Code.run_readByte`, `Code.run_readWord`, `Code.run_writeWord`, `Code.run_fillSpan` -- accesses
  that lie in memory.
-/

namespace Heapscope

/-- The bytes of a word make up the word. -/
theorem wordOfBytes_bytesOfWord (w : UInt32) : wordOfBytes (bytesOfWord w) = w := by
  have shift8 : (8 : UInt32).toNat % 32 = 8 := by simp
  have shift16 : (16 : UInt32).toNat % 32 = 16 := by simp
  have shift24 : (24 : UInt32).toNat % 32 = 24 := by simp
  have bound := w.toNat_lt
  rw [← UInt32.toNat_inj]
  simp only [bytesOfWord, wordOfBytes, UInt32.toNat_add, UInt32.toNat_shiftLeft,
    UInt32.toNat_shiftRight, UInt8.toNat_toUInt32, UInt32.toNat_toUInt8, shift8, shift16, shift24,
    Nat.shiftLeft_eq, Nat.shiftRight_eq_div_pow, UInt32.toNat_zero]
  omega

namespace LinearMemory

variable {m : LinearMemory} {address count : Nat}

/-- The word at an address. -/
def word (m : LinearMemory) (address : Nat) : UInt32 :=
  wordOfBytes ((List.range' address 4).map m.byte)

/-- A word is the same wherever its bytes are. -/
theorem word_congr {m' : LinearMemory}
    (same : ∀ p, address ≤ p → p < address + 4 → m'.byte p = m.byte p) :
    m'.word address = m.word address := by
  unfold word
  refine congrArg wordOfBytes (List.map_congr_left fun p member => ?_)
  obtain ⟨le, lt⟩ := List.mem_range'_1.mp member
  exact same p le lt

theorem holds_iff : m.holds address count = true ↔ address + count ≤ m.size := by
  unfold holds
  rw [decide_eq_true_eq]

theorem read?_of_fits (fits : address + count ≤ m.size) :
    m.read? address count = some ((List.range' address count).map m.byte) := by
  unfold read?
  rw [if_pos (holds_iff.mpr fits)]

/-- A word that is written is the word at its address, and nothing else changes. -/
theorem write?_word (w : UInt32) (fits : address + 4 ≤ m.size) :
    ∃ m', m.write? address (bytesOfWord w) = some m' ∧ m'.pages = m.pages ∧ m'.word address = w ∧
      ∀ p, p < address ∨ address + 4 ≤ p → m'.byte p = m.byte p := by
  have held : m.holds address (bytesOfWord w).length = true := holds_iff.mpr fits
  unfold write?
  rw [if_pos held]
  refine ⟨_, rfl, rfl, ?_, ?_⟩
  · have bytes : (List.range' address 4).map (fun p => if address ≤ p then
        (bytesOfWord w).getD (p - address) (m.byte p) else m.byte p) = bytesOfWord w := by
      simp [List.range'_succ, bytesOfWord, Nat.add_assoc]
    unfold word
    rw [bytes, wordOfBytes_bytesOfWord]
  · intro p outside
    simp only
    split
    · rw [List.getD_eq_getElem?_getD, List.getElem?_eq_none, Option.getD_none]
      have length : (bytesOfWord w).length = 4 := rfl
      omega
    · rfl

/-- A span that is filled has the value in each of its bytes, and nothing else changes. -/
theorem fill?_of_fits (value : UInt8) (fits : address + count ≤ m.size) :
    ∃ m', m.fill? address count value = some m' ∧ m'.pages = m.pages ∧
      ∀ p, m'.byte p = if address ≤ p ∧ p < address + count then value else m.byte p := by
  unfold fill?
  rw [if_pos (holds_iff.mpr fits)]
  exact ⟨_, rfl, rfl, fun _ => rfl⟩

end LinearMemory

/-! ## Accesses of code -/

namespace Code

variable {α β : Type} {s : Surroundings} {m : Machine}

/-- Code that goes on with a result runs up to the result first. -/
theorem run_bind (c : Code α) (next : α → Code β) (m : Machine) :
    (c >>= next).run s m = match c.run s m with
      | (.ok a, m') => (next a).run s m'
      | (.error t, m') => (.error t, m') := by
  show (c.bind next).run s m = _
  induction c generalizing m with
  | finish a => rfl
  | trap t => rfl
  | call b rest ih => exact ih _ _
  | load address count rest ih =>
    simp only [bind, run]
    cases m.memory.read? address count with
    | none => rfl
    | some bytes => exact ih bytes m
  | store address bytes rest ih =>
    simp only [bind, run]
    cases m.memory.write? address bytes with
    | none => rfl
    | some memory => exact ih () _
  | fill address count value rest ih =>
    simp only [bind, run]
    cases m.memory.fill? address count value with
    | none => rfl
    | some memory => exact ih () _
  | grow pages rest ih =>
    simp only [bind, run]
    cases m.memory.grow? s.options.memoryLimit.toNat pages with
    | none => exact ih (-1) m
    | some memory => exact ih _ _
  | get x rest ih => exact ih _ _
  | set x value rest ih => exact ih () _

theorem run_bind_of_ok {c : Code α} {a : α} {m' : Machine} (next : α → Code β)
    (ran : c.run s m = (.ok a, m')) : (c >>= next).run s m = (next a).run s m' := by
  rw [run_bind, ran]

theorem run_load {address count : Nat} {bytes : List UInt8}
    (read : m.memory.read? address count = some bytes) (next : List UInt8 → Code α) :
    (load address count next).run s m = (next bytes).run s m := by
  rw [run, read]

theorem run_store {address : Nat} {bytes : List UInt8} {memory : LinearMemory}
    (written : m.memory.write? address bytes = some memory) (next : Unit → Code α) :
    (store address bytes next).run s m = (next ()).run s { m with memory } := by
  rw [run, written]

theorem run_readByte {address : UInt32} (fits : address.toNat < m.memory.size) :
    (readByte address).run s m = (.ok (m.memory.byte address.toNat), m) :=
  run_load (LinearMemory.read?_of_fits (show address.toNat + 1 ≤ m.memory.size from fits)) _

theorem run_readWord {address : UInt32} (fits : address.toNat + 4 ≤ m.memory.size) :
    (readWord address).run s m = (.ok (m.memory.word address.toNat), m) :=
  run_load (LinearMemory.read?_of_fits fits) _

/-- A word that is written is the word at its address, and nothing else changes. -/
theorem run_writeWord {address : UInt32} (w : UInt32) (fits : address.toNat + 4 ≤ m.memory.size) :
    ∃ memory, (writeWord address w).run s m = (.ok (), { m with memory }) ∧
      memory.pages = m.memory.pages ∧ memory.word address.toNat = w ∧
      ∀ p, p < address.toNat ∨ address.toNat + 4 ≤ p → memory.byte p = m.memory.byte p := by
  obtain ⟨memory, written, rest⟩ := LinearMemory.write?_word w fits
  exact ⟨memory, run_store written _, rest⟩

/-- A span that is filled has the value in each of its bytes, and nothing else changes. -/
theorem run_fillSpan {address count : UInt32} (value : UInt8)
    (fits : address.toNat + count.toNat ≤ m.memory.size) :
    ∃ memory, (fillSpan address count value).run s m = (.ok (), { m with memory }) ∧
      memory.pages = m.memory.pages ∧ ∀ p, memory.byte p =
        if address.toNat ≤ p ∧ p < address.toNat + count.toNat then value else m.memory.byte p := by
  obtain ⟨memory, filled, rest⟩ := LinearMemory.fill?_of_fits value fits
  refine ⟨memory, ?_, rest⟩
  unfold fillSpan
  simp only [run, filled]

/-- The size of the address space is that of the options. -/
theorem run_ask_totalMemory :
    (ask .totalMemory).run s m = (.ok s.options.capacity.toInt32, m) := by
  have done : Binding.totalMemory.perform s m = (s.options.capacity.toInt32,
      { m with notes := m.notes ++ [], logs := m.logs ++ [] }) := rfl
  unfold ask
  simp only [run, done, List.append_nil]

end Code

end Heapscope
