import Heapscope.Number.Numeral

/-!
# JSON tokens

The words of a JSON text: brackets, separators, literals, numerals and strings.

* `Token.text` -- the spelling of a token; a string escapes quotes, backslashes and the controls
  below `0x20`, and nothing else;
* `Token.lex` -- the tokens of a text.  It reads one character at a time (`Lexing.step`), so it is
  a fold over the text.  Where the text stops being JSON the last token is `unreadable`.
-/

namespace Heapscope

/-- One word of a JSON text. -/
inductive Token where
  | arrayOpen
  | arrayClose
  | objectOpen
  | objectClose
  | comma
  | colon
  | null
  | boolean (b : Bool)
  | numeral (n : Numeral)
  /-- A string; none when an escape in it names half of a surrogate pair. -/
  | string (s : Option String)
  /-- The text is no JSON from here on. -/
  | unreadable
deriving DecidableEq, Repr

namespace Token

/-! ## Spelling -/

/-- A hexadecimal digit in lower case. -/
def hexDigit (n : Nat) : Char := if n < 10 then Char.ofNat (48 + n) else Char.ofNat (87 + n)

/-- The spelling of a character inside a string. -/
def escape (c : Char) : List Char :=
  if c = '"' then ['\\', '"']
  else if c = '\\' then ['\\', '\\']
  else if c = '\x08' then ['\\', 'b']
  else if c = '\t' then ['\\', 't']
  else if c = '\n' then ['\\', 'n']
  else if c = '\x0c' then ['\\', 'f']
  else if c = '\r' then ['\\', 'r']
  else if c.toNat < 0x20 then
    ['\\', 'u', '0', '0', hexDigit (c.toNat / 16), hexDigit (c.toNat % 16)]
  else [c]

/-- The spelling of a string, quotes included. -/
def quoted (cs : List Char) : List Char := '"' :: cs.flatMap escape ++ ['"']

/-- The spelling of a token. -/
def text : Token → List Char
  | arrayOpen => ['[']
  | arrayClose => [']']
  | objectOpen => ['\x7b']
  | objectClose => ['\x7d']
  | comma => [',']
  | colon => [':']
  | null => ['n', 'u', 'l', 'l']
  | boolean true => ['t', 'r', 'u', 'e']
  | boolean false => ['f', 'a', 'l', 's', 'e']
  | numeral n => n.text
  | string s => quoted (s.getD "").toList
  | unreadable => []

/-! ## Strings with escapes -/

/-- What one place of a string stands for. -/
inductive Place where
  /-- A character. -/
  | char (c : Char)
  /-- A 16-bit unit that is half of a surrogate pair. -/
  | surrogate (unit : Nat)
deriving DecidableEq, Repr

namespace Place

/-- The place of a 16-bit unit. -/
def ofUnit (n : Nat) : Place :=
  if 0xd800 ≤ n ∧ n < 0xe000 then .surrogate n else .char (Char.ofNat n)

/-- The characters of a string: a leading surrogate directly before a trailing one forms a
character with it; any other surrogate has no meaning. -/
def characters? : List Place → Option (List Char)
  | [] => some []
  | .char c :: rest => (characters? rest).map (c :: ·)
  | .surrogate high :: .surrogate low :: rest =>
    if high < 0xdc00 ∧ 0xdc00 ≤ low then
      (characters? rest).map
        (Char.ofNat (0x10000 + (high - 0xd800) * 0x400 + (low - 0xdc00)) :: ·)
    else none
  | .surrogate _ :: _ => none

end Place

/-! ## Numerals -/

/-- How far a numeral has been read. -/
inductive Stage where
  | minus
  | zero
  | whole
  | point
  | fraction
  | mark
  | sign
  | exponent
deriving DecidableEq, Repr

/-- A numeral being read; the digits of the fraction are held last first. -/
structure Counting where
  stage : Stage
  negative : Bool
  whole : Nat
  fraction : List Digit
  exponentNegative : Bool
  exponent : Nat
deriving DecidableEq, Repr

namespace Counting

/-- The numeral that has been read, if it may end here. -/
def finish? (s : Counting) : Option Numeral :=
  let exponent : Int := if s.exponentNegative then -(s.exponent : Int) else s.exponent
  match s.stage with
  | .zero | .whole | .fraction => some ⟨s.negative, s.whole, s.fraction.reverse, none⟩
  | .exponent => some ⟨s.negative, s.whole, s.fraction.reverse, some exponent⟩
  | .minus | .point | .mark | .sign => none

/-- The effect of a further digit.  A zero in front of further digits is refused. -/
def digit? (s : Counting) (d : Digit) : Option Counting :=
  match s.stage with
  | .minus => some { s with stage := if d = 0 then .zero else .whole, whole := d.val }
  | .zero => none
  | .whole => some { s with whole := 10 * s.whole + d.val }
  | .point | .fraction => some { s with stage := .fraction, fraction := d :: s.fraction }
  | .mark | .sign | .exponent =>
    some { s with stage := .exponent, exponent := 10 * s.exponent + d.val }

/-- The effect of a further character that is no digit, if it belongs to the numeral. -/
def mark? (s : Counting) (c : Char) : Option Counting :=
  match s.stage, c with
  | .zero, '.' | .whole, '.' => some { s with stage := .point }
  | .zero, 'e' | .whole, 'e' | .fraction, 'e' => some { s with stage := .mark }
  | .zero, 'E' | .whole, 'E' | .fraction, 'E' => some { s with stage := .mark }
  | .mark, '+' => some { s with stage := .sign }
  | .mark, '-' => some { s with stage := .sign, exponentNegative := true }
  | _, _ => none

/-- A numeral of which nothing but possibly the sign has been read. -/
def start (negative : Bool) : Counting := ⟨.minus, negative, 0, [], false, 0⟩

end Counting

/-! ## Reading -/

/-- What is being read when the next character comes. -/
inductive Lexing where
  /-- Nothing: a token may start. -/
  | between
  /-- A word of which `rest` is still to come. -/
  | word (rest : List Char) (token : Token)
  /-- A numeral. -/
  | numeral (s : Counting)
  /-- A string, its places held last first. -/
  | string (places : List Place)
  /-- The character after a backslash. -/
  | escape (places : List Place)
  /-- A 16-bit unit of which `left` hexadecimal digits are still to come. -/
  | unit (places : List Place) (left : Nat) (value : Nat)
  /-- The text is no JSON. -/
  | stuck
deriving DecidableEq, Repr

namespace Lexing

/-- The blanks of JSON. -/
def isSpace (c : Char) : Bool := c = ' ' ∨ c = '\t' ∨ c = '\n' ∨ c = '\r'

/-- The value of a hexadecimal digit. -/
def hexValue? (c : Char) : Option Nat :=
  if '0' ≤ c ∧ c ≤ '9' then some (c.toNat - 48)
  else if 'a' ≤ c ∧ c ≤ 'f' then some (c.toNat - 87)
  else if 'A' ≤ c ∧ c ≤ 'F' then some (c.toNat - 55)
  else none

/-- The character that a one-letter escape stands for. -/
def unescape? : Char → Option Char
  | '"' => some '"'
  | '\\' => some '\\'
  | '/' => some '/'
  | 'b' => some '\x08'
  | 'f' => some '\x0c'
  | 'n' => some '\n'
  | 'r' => some '\r'
  | 't' => some '\t'
  | _ => none

/-- A character where a token may start. -/
def start (c : Char) : List Token × Lexing :=
  if isSpace c then ([], .between)
  else match c with
    | '[' => ([.arrayOpen], .between)
    | ']' => ([.arrayClose], .between)
    | '\x7b' => ([.objectOpen], .between)
    | '\x7d' => ([.objectClose], .between)
    | ',' => ([.comma], .between)
    | ':' => ([.colon], .between)
    | '"' => ([], .string [])
    | 'n' => ([], .word ['u', 'l', 'l'] .null)
    | 't' => ([], .word ['r', 'u', 'e'] (.boolean true))
    | 'f' => ([], .word ['a', 'l', 's', 'e'] (.boolean false))
    | '-' => ([], .numeral (.start true))
    | c =>
      match (Digit.ofChar? c).bind (Counting.start false).digit? with
      | some s => ([], .numeral s)
      | none => ([.unreadable], .stuck)

/-- The tokens that a character completes, and what is being read after it. -/
def step (s : Lexing) (c : Char) : List Token × Lexing :=
  match s with
  | .between => start c
  | .word [] token => let (more, s) := start c; (token :: more, s)
  | .word (r :: rest) token =>
    if c ≠ r then ([.unreadable], .stuck)
    else if rest.isEmpty then ([token], .between)
    else ([], .word rest token)
  | .numeral n =>
    match Digit.ofChar? c with
    | some d =>
      match n.digit? d with
      | some n => ([], .numeral n)
      | none => ([.unreadable], .stuck)
    | none =>
      match n.mark? c with
      | some n => ([], .numeral n)
      | none =>
        -- the character that ends a numeral may start a token of its own
        match n.finish? with
        | some n => let (more, s) := start c; (.numeral n :: more, s)
        | none => ([.unreadable], .stuck)
  | .string places =>
    if c = '"' then
      ([.string ((Place.characters? places.reverse).map String.ofList)], .between)
    else if c = '\\' then ([], .escape places)
    else if c.toNat < 0x20 then ([.unreadable], .stuck)
    else ([], .string (.char c :: places))
  | .escape places =>
    if c = 'u' then ([], .unit places 4 0)
    else match unescape? c with
      | some e => ([], .string (.char e :: places))
      | none => ([.unreadable], .stuck)
  | .unit places left value =>
    match hexValue? c with
    | none => ([.unreadable], .stuck)
    | some h =>
      if left ≤ 1 then ([], .string (Place.ofUnit (16 * value + h) :: places))
      else ([], .unit places (left - 1) (16 * value + h))
  | .stuck => ([], .stuck)

/-- The tokens that the end of the text completes. -/
def finish : Lexing → List Token
  | .between | .stuck => []
  | .word [] token => [token]
  | .numeral n => [(n.finish?.map Token.numeral).getD .unreadable]
  | .word (_ :: _) _ | .string _ | .escape _ | .unit .. => [.unreadable]

/-- The tokens of the rest of a text. -/
def run (s : Lexing) : List Char → List Token
  | [] => s.finish
  | c :: cs => let (tokens, s) := s.step c; tokens ++ s.run cs

end Lexing

/-- The tokens of a text. -/
def lex (cs : List Char) : List Token := Lexing.between.run cs

end Token

end Heapscope
