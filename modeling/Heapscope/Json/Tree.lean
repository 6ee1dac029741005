import Heapscope.Json.Token

/-!
# JSON trees

The tree of a JSON text, with object fields in the order of the text and repeated keys kept.

A reader reports the first fault in the order of the text, be it one of form or one of meaning.  So
reading a tree never fails: where the text stops being JSON the tree has a `broken` leaf, and what
stands before it is intact.

* `Json.tokens` -- the tokens of a tree;
* `Document.read` -- the tree of a token list, by a stack of open brackets;
* `Json.compact`, `Json.pretty` -- the text of a tree on one line and indented by two.
-/

namespace Heapscope

/-- A JSON value as written. -/
inductive Json where
  | null
  | boolean (b : Bool)
  | numeral (n : Numeral)
  /-- A string; none when an escape in it names half of a surrogate pair. -/
  | string (s : Option String)
  | array (items : List Json)
  | object (fields : List (Option String × Json))
  /-- The text stops being JSON here. -/
  | broken
deriving Repr, Inhabited

namespace Json

/-- A string value. -/
def text (s : String) : Json := .string (some s)

/-- A whole number. -/
def nat (n : Nat) : Json := .numeral (.ofNat n)

/-- An object with the given fields. -/
def record (fields : List (String × Json)) : Json :=
  .object (fields.map fun f => (some f.1, f.2))

/-- A field that is left out when its value is absent. -/
def field? {α : Type} (name : String) (encode : α → Json) (value : Option α) :
    List (String × Json) :=
  match value with
  | some v => [(name, encode v)]
  | none => []

/-! ## Tokens of a tree -/

mutual

/-- The tokens of a value. -/
def tokens : Json → List Token
  | null => [.null]
  | boolean b => [.boolean b]
  | numeral n => [.numeral n]
  | string s => [.string s]
  | array items => .arrayOpen :: itemTokens items ++ [.arrayClose]
  | object fields => .objectOpen :: fieldTokens fields ++ [.objectClose]
  | broken => [.unreadable]

/-- The tokens of array items, separated by commas. -/
def itemTokens : List Json → List Token
  | [] => []
  | [v] => tokens v
  | v :: rest => tokens v ++ .comma :: itemTokens rest

/-- The tokens of object fields, separated by commas. -/
def fieldTokens : List (Option String × Json) → List Token
  | [] => []
  | [(k, v)] => .string k :: .colon :: tokens v
  | (k, v) :: rest => .string k :: .colon :: tokens v ++ .comma :: fieldTokens rest

end

/-- The text of a value on one line, without blanks. -/
def compact (v : Json) : String := String.ofList (v.tokens.flatMap Token.text)

/-- A line break and the indentation of the given depth. -/
def newline (depth : Nat) : List Char := '\n' :: List.replicate (2 * depth) ' '

/-- The change of depth after a token. -/
def depthAfter (depth : Nat) : Token → Nat
  | .arrayOpen | .objectOpen => depth + 1
  | .arrayClose | .objectClose => depth - 1
  | _ => depth

/-- Whether the next token closes a bracket. -/
def closes : List Token → Bool
  | .arrayClose :: _ | .objectClose :: _ => true
  | _ => false

/-- The blanks between a token and the rest, at the depth after the token. -/
def gap (depth : Nat) (t : Token) (rest : List Token) : List Char :=
  match t, closes rest with
  | .arrayOpen, true | .objectOpen, true => []
  | .arrayOpen, false | .objectOpen, false => newline depth
  | .comma, _ => newline depth
  | .colon, _ => [' ']
  | _, true => newline (depth - 1)
  | _, false => []

/-- The indented text of a token list. -/
def indented : Nat → List Token → List Char
  | _, [] => []
  | depth, t :: rest =>
    let depth := depthAfter depth t
    t.text ++ gap depth t rest ++ indented depth rest

/-- The text of a value, one item or field a line. -/
def pretty (v : Json) : String := String.ofList (indented 0 v.tokens)

end Json

/-! ## Reading a tree -/

/-- An open bracket, with what has been read after it, last first. -/
inductive Frame where
  | array (items : List Json)
  | object (fields : List (Option String × Json)) (key : Option String)

/-- Adds a completed value to an open bracket. -/
def Frame.add (v : Json) : Frame → Frame
  | .array items => .array (v :: items)
  | .object fields key => .object ((key, v) :: fields) none

/-- The value of a bracket that is closed. -/
def Frame.close : Frame → Json
  | .array items => .array items.reverse
  | .object fields _ => .object fields.reverse

/-- What may come next. -/
inductive Expecting where
  /-- A value. -/
  | value
  /-- A value, or the end of the array just opened. -/
  | item
  /-- A key. -/
  | key
  /-- A key, or the end of the object just opened. -/
  | field
  | colon
  /-- A comma or a closing bracket. -/
  | separator
deriving DecidableEq, Repr

/-- A tree, and whether the text ends with it. -/
structure Document where
  root : Json
  complete : Bool

namespace Document

/-- The tree of a text that breaks off under the given open brackets. -/
def abandon (stack : List Frame) : Document :=
  ⟨stack.foldl (fun inner frame => (frame.add inner).close) .broken, false⟩

/-- The value of a token that is a value by itself. -/
def scalar? : Token → Option Json
  | .null => some .null
  | .boolean b => some (.boolean b)
  | .numeral n => some (.numeral n)
  | .string s => some (.string s)
  | _ => none

/-- What a token leads to. -/
inductive Advance where
  | next (stack : List Frame) (expecting : Expecting)
  /-- The outermost value is complete. -/
  | complete (v : Json)
  /-- The token may not stand here. -/
  | stop

/-- Hands a completed value to the innermost open bracket. -/
def settle (v : Json) : List Frame → Advance
  | [] => .complete v
  | frame :: outer => .next (frame.add v :: outer) .separator

/-- What a token leads to under the given open brackets, innermost first. -/
def advance (stack : List Frame) (expecting : Expecting) (token : Token) : Advance :=
  match expecting, token, stack with
  | .value, .arrayOpen, _ | .item, .arrayOpen, _ => .next (.array [] :: stack) .item
  | .value, .objectOpen, _ | .item, .objectOpen, _ => .next (.object [] none :: stack) .field
  | .key, .string k, .object fields _ :: outer | .field, .string k, .object fields _ :: outer =>
    .next (.object fields k :: outer) .colon
  | .colon, .colon, _ => .next stack .value
  | .separator, .comma, .array items :: outer => .next (.array items :: outer) .value
  | .separator, .comma, .object fields k :: outer => .next (.object fields k :: outer) .key
  | .item, .arrayClose, .array items :: outer | .separator, .arrayClose, .array items :: outer =>
    settle (Frame.array items).close outer
  | .field, .objectClose, .object fields k :: outer
  | .separator, .objectClose, .object fields k :: outer =>
    settle (Frame.object fields k).close outer
  | .value, t, _ | .item, t, _ =>
    match scalar? t with
    | some v => settle v stack
    | none => .stop
  | _, _, _ => .stop

/-- Reads tokens under the given open brackets. -/
def readFrom (stack : List Frame) (expecting : Expecting) : List Token → Document
  | [] => abandon stack
  | token :: rest =>
    match advance stack expecting token with
    | .next stack expecting => readFrom stack expecting rest
    | .complete v => ⟨v, rest.isEmpty⟩
    | .stop => abandon stack

/-- The document of a text. -/
def read (text : String) : Document := readFrom [] .value (Token.lex text.toList)

end Document

end Heapscope
