import Heapscope.Json.Token
import Heapscope.Proofs.Number.Digits

/-!
# Tokens from their text

The text of a token is read back as the token, whatever follows, unless the token is a numeral: what
follows a numeral must not go on with it.  So the text of a list of tokens is read back as the list,
with blanks between them or without.

* `Token.run_numeral`, `Token.run_quoted` -- numerals and strings, the tokens of any length;
* `Token.run_text` -- any token;
* `Token.Spelled` -- texts of a list of tokens; `Token.Spelled.lex` -- reading gives the list back.
-/

namespace Heapscope

namespace Token

open Lexing (run)

/-! ## Numerals -/

/-- Characters that end a numeral. -/
def endsNumeral (c : Char) : Bool := c = ',' ∨ c = ']' ∨ c = '\x7d' ∨ c = '\n'

/-- A text that does not go on with a numeral in front of it. -/
def Ends (cs : List Char) : Prop := ∀ c ∈ cs.head?, endsNumeral c = true

theorem ends_nil : Ends [] := nofun

theorem ends_cons {c : Char} (cs : List Char) (ends : endsNumeral c = true) : Ends (c :: cs) := by
  rintro _ ⟨⟩
  exact ends

theorem ofChar?_of_endsNumeral {c : Char} (ends : endsNumeral c = true) :
    Digit.ofChar? c = none := by
  unfold endsNumeral at ends
  simp only [Bool.decide_or, Bool.or_eq_true, decide_eq_true_eq] at ends
  rcases ends with rfl | rfl | rfl | rfl <;> rfl

theorem mark?_of_endsNumeral {c : Char} (ends : endsNumeral c = true) (s : Counting) :
    s.mark? c = none := by
  unfold endsNumeral at ends
  simp only [Bool.decide_or, Bool.or_eq_true, decide_eq_true_eq] at ends
  unfold Counting.mark?
  rcases ends with rfl | rfl | rfl | rfl <;> cases s.stage <;> rfl

/-- A numeral ends with what does not go on with it. -/
theorem run_numeral_of_ends {s : Counting} {n : Numeral} {rest : List Char} (ends : Ends rest)
    (finished : s.finish? = some n) :
    run (.numeral s) rest = .numeral n :: run .between rest := by
  cases rest with
  | nil => simp [run, Lexing.finish, finished]
  | cons c cs =>
    have last := ends c rfl
    rw [run, run]
    simp only [Lexing.step, ofChar?_of_endsNumeral last, mark?_of_endsNumeral last, finished]
    rfl

theorem run_digit {s s' : Counting} {d : Digit} (rest : List Char)
    (counted : s.digit? d = some s') :
    run (.numeral s) (d.char :: rest) = run (.numeral s') rest := by
  rw [run]
  simp only [Lexing.step, Digit.ofChar?_char, counted, List.nil_append]

theorem run_mark {s s' : Counting} {c : Char} (rest : List Char)
    (noDigit : Digit.ofChar? c = none) (counted : s.mark? c = some s') :
    run (.numeral s) (c :: rest) = run (.numeral s') rest := by
  rw [run]
  simp only [Lexing.step, noDigit, counted, List.nil_append]

/-- A numeral begins with a digit, behind its sign. -/
theorem run_start (d : Digit) (rest : List Char) :
    run .between (d.char :: rest) = run (.numeral (.start false)) (d.char :: rest) := by
  have first : Lexing.step .between d.char = Lexing.step (.numeral (.start false)) d.char := by
    revert d
    decide
  rw [run, run, first]

/-- Digits one after the other, where `f` tells what has been read after some of them. -/
theorem run_digits (f : List Digit → Counting)
    (counted : ∀ front d, (f front).digit? d = some (f (front ++ [d]))) (front ds : List Digit)
    (rest : List Char) :
    run (.numeral (f front)) (ds.map Digit.char ++ rest)
      = run (.numeral (f (front ++ ds))) rest := by
  induction ds generalizing front with
  | nil => rw [List.append_nil, List.map_nil, List.nil_append]
  | cons d ds ih =>
    rw [List.map_cons, List.cons_append, run_digit _ (counted front d), ih, List.append_assoc]
    rfl

/-- A numeral of which the whole part has been read. -/
def readWhole (negative : Bool) (n : Nat) : Counting :=
  ⟨if n = 0 then .zero else .whole, negative, n, [], false, 0⟩

theorem run_decimalText (negative : Bool) (n : Nat) (rest : List Char) :
    run (.numeral (.start negative)) (decimalText n ++ rest)
      = run (.numeral (readWhole negative n)) rest := by
  obtain ⟨d, ds, digits, zero⟩ := decimalDigits_eq_cons n
  have value := value_decimalDigits n
  unfold decimalText readWhole
  rw [digits] at value ⊢
  rw [List.map_cons, List.cons_append]
  by_cases first : d = 0
  · obtain ⟨rfl, rfl⟩ := zero first
    rw [first]
    rfl
  · have whole : Digit.valueFrom d.val ds = n := by
      rw [← value, Digit.value, Digit.valueFrom_cons, Nat.mul_zero, Nat.zero_add]
    have nonzero : n ≠ 0 := by
      have le := Digit.le_valueFrom d.val ds
      have pos : d.val ≠ 0 := fun zero => first (Fin.ext zero)
      omega
    rw [if_neg nonzero, run_digit _ (show _ = some ⟨.whole, negative, d.val, [], false, 0⟩ by
      simp only [Counting.digit?, Counting.start, if_neg first]), ← whole]
    exact run_digits (fun front => ⟨.whole, negative, Digit.valueFrom d.val front, [], false, 0⟩)
      (fun front e => by rw [Digit.valueFrom_append]; rfl) [] ds rest

/-- A numeral of which everything but possibly the exponent has been read. -/
def readFraction (negative : Bool) (n : Nat) (fraction : List Digit) : Counting :=
  if fraction.isEmpty then readWhole negative n
  else ⟨.fraction, negative, n, fraction.reverse, false, 0⟩

theorem run_fraction (negative : Bool) (n : Nat) (fraction : List Digit) (rest : List Char) :
    run (.numeral (readWhole negative n))
        ((if fraction.isEmpty then [] else '.' :: fraction.map Digit.char) ++ rest)
      = run (.numeral (readFraction negative n fraction)) rest := by
  unfold readFraction
  cases fraction with
  | nil => rfl
  | cons d ds =>
    have point : (readWhole negative n).mark? '.'
        = some ⟨.point, negative, n, [], false, 0⟩ := by
      unfold readWhole
      by_cases zero : n = 0
      · rw [if_pos zero]
        rfl
      · rw [if_neg zero]
        rfl
    simp only [List.isEmpty_cons, Bool.false_eq_true, if_false, List.cons_append, List.map_cons]
    rw [run_mark _ rfl point,
      run_digit _ (show _ = some ⟨.fraction, negative, n, [d], false, 0⟩ from rfl)]
    have digits := run_digits
      (fun front => ⟨.fraction, negative, n, front.reverse ++ [d], false, 0⟩)
      (fun front e => by rw [List.reverse_append]; rfl) [] ds rest
    rw [List.reverse_cons]
    exact digits

theorem mark?_readFraction (negative : Bool) (n : Nat) (fraction : List Digit) :
    (readFraction negative n fraction).mark? 'e'
      = some ⟨.mark, negative, n, fraction.reverse, false, 0⟩ := by
  unfold readFraction
  cases fraction with
  | cons d ds => rfl
  | nil =>
    simp only [List.isEmpty_nil, if_true]
    unfold readWhole
    by_cases zero : n = 0
    · rw [if_pos zero]
      rfl
    · rw [if_neg zero]
      rfl

theorem finish?_readFraction (negative : Bool) (n : Nat) (fraction : List Digit) :
    (readFraction negative n fraction).finish? = some ⟨negative, n, fraction, none⟩ := by
  unfold readFraction
  cases fraction with
  | cons d ds =>
    simp only [List.isEmpty_cons, Bool.false_eq_true, if_false, Counting.finish?,
      List.reverse_reverse]
  | nil =>
    simp only [List.isEmpty_nil, if_true]
    unfold readWhole
    by_cases zero : n = 0
    · rw [if_pos zero]
      rfl
    · rw [if_neg zero]
      rfl

/-- A numeral that ends with its exponent. -/
theorem run_exponentText (negative : Bool) (n : Nat) (fraction : List Digit) (e : Int)
    {rest : List Char} (ends : Ends rest) :
    run (.numeral (readFraction negative n fraction)) (Numeral.exponentText e ++ rest)
      = .numeral ⟨negative, n, fraction, some e⟩ :: run .between rest := by
  obtain ⟨d, ds, digits, -⟩ := decimalDigits_eq_cons e.natAbs
  have value := value_decimalDigits e.natAbs
  rw [digits, Digit.value, Digit.valueFrom_cons] at value
  have read : ∀ below : Bool, below = decide (e < 0) →
      run (.numeral ⟨.sign, negative, n, fraction.reverse, below, 0⟩) (decimalText e.natAbs ++ rest)
        = .numeral ⟨negative, n, fraction, some e⟩ :: run .between rest := by
    intro below sign
    unfold decimalText
    rw [digits, List.map_cons, List.cons_append,
      run_digit _ (show _ = some ⟨.exponent, negative, n, fraction.reverse, below, 10 * 0 + d.val⟩
        from rfl)]
    refine (run_digits (fun front => ⟨.exponent, negative, n, fraction.reverse, below,
      Digit.valueFrom (10 * 0 + d.val) front⟩)
      (fun front e => by rw [Digit.valueFrom_append]; rfl) [] ds rest).trans ?_
    refine run_numeral_of_ends ends ?_
    rw [List.nil_append, value]
    unfold Counting.finish?
    simp only [List.reverse_reverse, sign, decide_eq_true_eq]
    congr 3
    split <;> omega
  unfold Numeral.exponentText
  rw [List.cons_append, run_mark _ rfl (mark?_readFraction negative n fraction), List.cons_append]
  by_cases below : e < 0
  · rw [if_pos below, run_mark _ rfl rfl]
    exact read true (decide_eq_true below).symm
  · rw [if_neg below, run_mark _ rfl rfl]
    exact read false (decide_eq_false below).symm

/-- A numeral is read back from its text. -/
theorem run_numeral (n : Numeral) {rest : List Char} (ends : Ends rest) :
    run .between (n.text ++ rest) = .numeral n :: run .between rest := by
  obtain ⟨negative, whole, fraction, exponent⟩ := n
  have unsigned : run (.numeral (.start negative)) (decimalText whole
      ++ ((if fraction.isEmpty then [] else '.' :: fraction.map Digit.char)
        ++ ((exponent.map Numeral.exponentText).getD [] ++ rest)))
      = .numeral ⟨negative, whole, fraction, exponent⟩ :: run .between rest := by
    rw [run_decimalText, run_fraction]
    cases exponent with
    | none => exact run_numeral_of_ends ends (finish?_readFraction negative whole fraction)
    | some e => exact run_exponentText negative whole fraction e ends
  unfold Numeral.text
  simp only [List.append_assoc]
  cases negative with
  | true => exact unsigned
  | false =>
    obtain ⟨d, ds, digits, -⟩ := decimalDigits_eq_cons whole
    rw [← unsigned]
    unfold decimalText
    rw [digits]
    exact run_start d _

/-! ## Strings -/

theorem hexValue?_hexDigit {n : Nat} (small : n < 16) : Lexing.hexValue? (hexDigit n) = some n := by
  have all : ∀ k : Fin 16, Lexing.hexValue? (hexDigit k.val) = some k.val := by decide
  exact all ⟨n, small⟩

/-- A character of a string is read back from its spelling. -/
theorem run_escape (places : List Place) (c : Char) (rest : List Char) :
    run (.string places) (escape c ++ rest) = run (.string (.char c :: places)) rest := by
  unfold escape
  -- first the characters with an escape of one letter, then the other controls
  split
  · subst c; rfl
  split
  · subst c; rfl
  split
  · subst c; rfl
  split
  · subst c; rfl
  split
  · subst c; rfl
  split
  · subst c; rfl
  split
  · subst c; rfl
  rename_i quote backslash _ _ _ _ _
  split
  · rename_i control
    have high := hexValue?_hexDigit (show c.toNat / 16 < 16 by omega)
    have low := hexValue?_hexDigit (show c.toNat % 16 < 16 by omega)
    have unit : Place.ofUnit (16 * (c.toNat / 16) + c.toNat % 16) = .char c := by
      rw [show 16 * (c.toNat / 16) + c.toNat % 16 = c.toNat by omega]
      unfold Place.ofUnit
      rw [if_neg (by omega), Char.ofNat_toNat]
    have zero : Lexing.hexValue? '0' = some 0 := rfl
    simp only [List.cons_append, List.nil_append, run, Lexing.step]
    simp [zero, high, low, unit]
  · rename_i graphic
    simp only [List.cons_append, List.nil_append, run, Lexing.step, if_neg quote, if_neg backslash,
      if_neg graphic]

theorem characters?_chars (cs : List Char) : Place.characters? (cs.map .char) = some cs := by
  induction cs with
  | nil => rfl
  | cons c cs ih => rw [List.map_cons, Place.characters?, ih]; rfl

/-- A string is read back from its text. -/
theorem run_quoted (s : String) (rest : List Char) :
    run .between (quoted s.toList ++ rest) = .string (some s) :: run .between rest := by
  have body : ∀ (cs : List Char) (places : List Place),
      run (.string places) (cs.flatMap escape ++ ('"' :: rest))
        = .string ((Place.characters? (places.reverse ++ cs.map .char)).map String.ofList)
          :: run .between rest := by
    intro cs
    induction cs with
    | nil =>
      intro places
      rw [List.map_nil, List.append_nil]
      rfl
    | cons c cs ih =>
      intro places
      rw [List.flatMap_cons, List.append_assoc, run_escape, ih, List.reverse_cons,
        List.append_assoc]
      rfl
  have whole := body s.toList []
  rw [List.reverse_nil, List.nil_append, characters?_chars, Option.map_some,
    String.ofList_toList] at whole
  unfold quoted
  rw [List.append_assoc, List.cons_append]
  exact whole

/-! ## Any token -/

/-- Tokens that have a text of their own. -/
def Printable : Token → Prop
  | .string none | .unreadable => False
  | _ => True

/-- Whether a token is a numeral. -/
def isNumeral : Token → Bool
  | .numeral _ => true
  | _ => false

/-- A token is read back from its text. -/
theorem run_text {t : Token} (printable : t.Printable) {rest : List Char}
    (ends : t.isNumeral = true → Ends rest) :
    run .between (t.text ++ rest) = t :: run .between rest := by
  cases t with
  | numeral n => exact run_numeral n (ends rfl)
  | string s =>
    cases s with
    | none => exact printable.elim
    | some s => exact run_quoted s rest
  | boolean b => cases b <;> rfl
  | unreadable => exact printable.elim
  | _ => rfl

/-- Texts of a list of tokens: the texts of the tokens, with blanks between them or without. -/
inductive Spelled : List Char → List Token → Prop
  | nil : Spelled [] []
  | blank {c : Char} {cs : List Char} {ts : List Token} (space : Lexing.isSpace c = true)
      (rest : Spelled cs ts) : Spelled (c :: cs) ts
  | token {t : Token} {cs : List Char} {ts : List Token} (printable : t.Printable)
      (ends : t.isNumeral = true → Ends cs) (rest : Spelled cs ts) :
      Spelled (t.text ++ cs) (t :: ts)

/-- Tokens are read back from each of their texts. -/
theorem Spelled.lex {cs : List Char} {ts : List Token} (spelled : Spelled cs ts) : lex cs = ts := by
  unfold Token.lex
  induction spelled with
  | nil => rfl
  | blank space _ ih =>
    rw [run]
    simp only [Lexing.step, Lexing.start, space, if_true, List.nil_append, ih]
  | token printable ends _ ih => rw [run_text printable ends, ih]

theorem Spelled.blanks {cs bs : List Char} {ts : List Token}
    (spaces : ∀ c ∈ bs, Lexing.isSpace c = true) (spelled : Spelled cs ts) :
    Spelled (bs ++ cs) ts := by
  induction bs with
  | nil => exact spelled
  | cons c bs ih =>
    obtain ⟨first, more⟩ := List.forall_mem_cons.mp spaces
    exact .blank first (ih more)

end Token

end Heapscope
