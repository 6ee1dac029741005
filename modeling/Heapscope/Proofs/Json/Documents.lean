import Heapscope.Json.Reading
import Heapscope.Proofs.Json.Lexing
import Mathlib.Data.List.Chain

/-!
# Trees from their text

The tree of a text is the tree that was written, be it on one line or indented, as long as it can be
written: nothing in it is broken off, and every string has characters.

* `Json.Printable` -- trees that can be written;
* `Json.separated_tokens` -- no numeral in a tree stands in front of what could go on with it;
* `Json.spelled_compact`, `Json.spelled_indented` -- the two layouts;
* `Document.read_compact`, `Document.read_pretty` -- the tree is read back;
* `Json.readText_compact`, `Json.readText_pretty` -- so a reader of a text reads the tree.
-/

namespace Heapscope

namespace Token

/-- Tokens that may stand behind a numeral. -/
def separates : Token → Bool
  | .comma | .arrayClose | .objectClose => true
  | _ => false

/-- Whether a token may stand behind another one without a blank. -/
def Follows (t u : Token) : Prop := t.isNumeral = true → u.separates = true

/-- A text that begins with the text of a token which may stand behind a numeral. -/
theorem ends_text {u : Token} (separates : u.separates = true) (cs : List Char) :
    Ends (u.text ++ cs) := by
  cases u with
  | comma | arrayClose | objectClose => exact ends_cons cs rfl
  | _ => cases separates

end Token

namespace Json

open Token (Follows Spelled Ends Lexing)

/-- Trees that can be written. -/
def Printable (v : Json) : Prop := ∀ t ∈ v.tokens, t.Printable

/-! ## Tokens of a tree -/

theorem itemTokens_cons_cons (v w : Json) (more : List Json) :
    itemTokens (v :: w :: more) = v.tokens ++ .comma :: itemTokens (w :: more) := by
  rw [itemTokens]
  exact nofun

theorem fieldTokens_cons_cons (k : Option String) (v : Json) (f : Option String × Json)
    (more : List (Option String × Json)) : fieldTokens ((k, v) :: f :: more)
      = .string k :: .colon :: (v.tokens ++ .comma :: fieldTokens (f :: more)) := by
  rw [fieldTokens]
  · rfl
  · exact nofun

section Separated

/-- A list of tokens that may stand behind a value. -/
def Behind (rest : List Token) : Prop :=
  (∀ u ∈ rest.head?, u.separates = true) ∧ rest.IsChain Follows

theorem Behind.cons {u : Token} {rest : List Token} (separates : u.separates = true)
    (chain : (u :: rest).IsChain Follows) : Behind (u :: rest) := by
  refine ⟨?_, chain⟩
  rintro _ ⟨⟩
  exact separates

/-- A token that is no numeral may stand in front of anything. -/
theorem chain_cons {t : Token} {rest : List Token} (notNumeral : t.isNumeral = false)
    (chain : rest.IsChain Follows) : (t :: rest).IsChain Follows := by
  refine List.isChain_cons.mpr ⟨fun u _ numeral => ?_, chain⟩
  rw [notNumeral] at numeral
  cases numeral

theorem Behind.chain_cons {rest : List Token} (behind : Behind rest) (t : Token) :
    (t :: rest).IsChain Follows :=
  List.isChain_cons.mpr ⟨fun u member _ => behind.1 u member, behind.2⟩

mutual

theorem separated_tokens : ∀ (v : Json) {rest : List Token}, Behind rest →
    (v.tokens ++ rest).IsChain Follows
  | .null, _, behind | .boolean _, _, behind | .numeral _, _, behind | .string _, _, behind
  | .broken, _, behind => behind.chain_cons _
  | .array items, rest, behind => by
    rw [tokens, List.cons_append, List.cons_append, List.append_assoc]
    exact chain_cons rfl (separated_items items (.cons rfl (behind.chain_cons _)))
  | .object fields, rest, behind => by
    rw [tokens, List.cons_append, List.cons_append, List.append_assoc]
    exact chain_cons rfl (separated_fields fields (.cons rfl (behind.chain_cons _)))

theorem separated_items : ∀ (items : List Json) {rest : List Token}, Behind rest →
    (itemTokens items ++ rest).IsChain Follows
  | [], _, behind => behind.2
  | [v], _, behind => separated_tokens v behind
  | v :: w :: more, rest, behind => by
    rw [itemTokens_cons_cons, List.append_assoc, List.cons_append]
    exact separated_tokens v (.cons rfl (chain_cons rfl (separated_items (w :: more) behind)))

theorem separated_fields : ∀ (fields : List (Option String × Json)) {rest : List Token},
    Behind rest → (fieldTokens fields ++ rest).IsChain Follows
  | [], _, behind => behind.2
  | [(_, v)], _, behind => chain_cons rfl (chain_cons rfl (separated_tokens v behind))
  | (_, v) :: f :: more, rest, behind => by
    rw [fieldTokens_cons_cons, List.cons_append, List.cons_append, List.append_assoc,
      List.cons_append]
    exact chain_cons rfl (chain_cons rfl
      (separated_tokens v (.cons rfl (chain_cons rfl (separated_fields (f :: more) behind)))))

end

theorem chain_tokens (v : Json) : v.tokens.IsChain Follows := by
  have chain := separated_tokens v (show Behind [] from ⟨nofun, .nil⟩)
  rwa [List.append_nil] at chain

end Separated

theorem mem_tokens_array {items : List Json} {t : Token} : t ∈ (array items).tokens ↔
    t = .arrayOpen ∨ t = .arrayClose ∨ t ∈ itemTokens items := by
  simp only [tokens, List.mem_append, List.mem_cons, List.not_mem_nil, or_false, or_assoc,
    or_comm (a := t ∈ itemTokens items)]

theorem mem_tokens_object {fields : List (Option String × Json)} {t : Token} :
    t ∈ (object fields).tokens ↔
      t = .objectOpen ∨ t = .objectClose ∨ t ∈ fieldTokens fields := by
  simp only [tokens, List.mem_append, List.mem_cons, List.not_mem_nil, or_false, or_assoc,
    or_comm (a := t ∈ fieldTokens fields)]

theorem mem_itemTokens {items : List Json} {t : Token} (member : t ∈ itemTokens items) :
    t = .comma ∨ ∃ v ∈ items, t ∈ v.tokens := by
  induction items with
  | nil => cases member
  | cons v rest ih =>
    cases rest with
    | nil => exact .inr ⟨v, List.mem_cons_self, member⟩
    | cons w more =>
      rw [itemTokens_cons_cons, List.mem_append, List.mem_cons] at member
      rcases member with here | comma | later
      · exact .inr ⟨v, List.mem_cons_self, here⟩
      · exact .inl comma
      · refine (ih later).imp_right ?_
        rintro ⟨u, hu, there⟩
        exact ⟨u, List.mem_cons_of_mem _ hu, there⟩

theorem mem_fieldTokens {fields : List (Option String × Json)} {t : Token}
    (member : t ∈ fieldTokens fields) :
    t = .comma ∨ t = .colon ∨ ∃ f ∈ fields, t = .string f.1 ∨ t ∈ f.2.tokens := by
  induction fields with
  | nil => cases member
  | cons f rest ih =>
    cases rest with
    | nil =>
      rw [fieldTokens, List.mem_cons, List.mem_cons] at member
      rcases member with key | colon | here
      · exact .inr (.inr ⟨f, List.mem_cons_self, .inl key⟩)
      · exact .inr (.inl colon)
      · exact .inr (.inr ⟨f, List.mem_cons_self, .inr here⟩)
    | cons g more =>
      rw [fieldTokens_cons_cons, List.mem_cons, List.mem_cons, List.mem_append,
        List.mem_cons] at member
      rcases member with key | colon | here | comma | later
      · exact .inr (.inr ⟨f, List.mem_cons_self, .inl key⟩)
      · exact .inr (.inl colon)
      · exact .inr (.inr ⟨f, List.mem_cons_self, .inr here⟩)
      · exact .inl comma
      · refine (ih later).imp_right (Or.imp_right ?_)
        rintro ⟨e, he, there⟩
        exact ⟨e, List.mem_cons_of_mem _ he, there⟩

/-! ## Layouts -/

/-- Tokens on one line, without blanks. -/
theorem spelled_compact {ts : List Token} (chain : ts.IsChain Follows)
    (printable : ∀ t ∈ ts, t.Printable) : Spelled (ts.flatMap Token.text) ts := by
  induction ts with
  | nil => exact .nil
  | cons t rest ih =>
    obtain ⟨next, chain⟩ := List.isChain_cons.mp chain
    obtain ⟨this, others⟩ := List.forall_mem_cons.mp printable
    rw [List.flatMap_cons]
    refine .token this (fun numeral => ?_) (ih chain others)
    cases rest with
    | nil => exact Token.ends_nil
    | cons u more => exact Token.ends_text (next u rfl numeral) _

theorem isSpace_newline (depth : Nat) : ∀ c ∈ newline depth, Lexing.isSpace c = true := by
  intro c member
  rcases List.mem_cons.mp member with rfl | spaces
  · rfl
  · rw [List.eq_of_mem_replicate spaces]
    rfl

theorem isSpace_gap (depth : Nat) (t : Token) (rest : List Token) :
    ∀ c ∈ gap depth t rest, Lexing.isSpace c = true := by
  unfold gap
  split
  · exact nofun
  · exact nofun
  · exact isSpace_newline depth
  · exact isSpace_newline depth
  · exact isSpace_newline depth
  · intro c member
    rw [List.mem_singleton.mp member]
    rfl
  · exact isSpace_newline (depth - 1)
  · exact nofun

/-- Behind a numeral stands a line break, or nothing. -/
theorem gap_of_isNumeral {t : Token} (numeral : t.isNumeral = true) (depth : Nat)
    (rest : List Token) : gap depth t rest = if closes rest then newline (depth - 1) else [] := by
  cases t with
  | numeral n =>
    unfold gap
    cases closes rest <;> rfl
  | _ => cases numeral

/-- Tokens on lines of their own, and a blank end. -/
theorem spelled_indented {ts : List Token} (chain : ts.IsChain Follows)
    (printable : ∀ t ∈ ts, t.Printable) {tail : List Char}
    (blank : ∀ c ∈ tail, Lexing.isSpace c = true) (ends : Ends tail) (depth : Nat) :
    Spelled (indented depth ts ++ tail) ts := by
  induction ts generalizing depth with
  | nil =>
    have spelled := Spelled.nil.blanks blank
    rwa [List.append_nil] at spelled
  | cons t rest ih =>
    obtain ⟨next, chain⟩ := List.isChain_cons.mp chain
    obtain ⟨this, others⟩ := List.forall_mem_cons.mp printable
    rw [indented]
    simp only [List.append_assoc]
    refine .token this (fun numeral => ?_) ((ih chain others _).blanks (isSpace_gap _ t rest))
    rw [gap_of_isNumeral numeral]
    split
    · exact Token.ends_cons _ rfl
    · cases rest with
      | nil => exact ends
      | cons u more =>
        rw [List.nil_append, indented]
        simp only [List.append_assoc]
        exact Token.ends_text (next u rfl numeral) _

end Json

/-! ## Reading -/

namespace Document

/-- The document after a completed value: the text ends with it, or an open bracket takes it. -/
def resume (v : Json) (stack : List Frame) (rest : List Token) : Document :=
  match stack with
  | [] => ⟨v, rest.isEmpty⟩
  | frame :: outer => readFrom (frame.add v :: outer) .separator rest

theorem readFrom_scalar {t : Token} {v : Json} {stack : List Frame} {expecting : Expecting}
    (value : expecting = .value ∨ expecting = .item) (scalar : scalar? t = some v)
    (rest : List Token) : readFrom stack expecting (t :: rest) = resume v stack rest := by
  rw [readFrom]
  cases t with
  | null | boolean | numeral | string =>
    cases scalar
    rcases value with rfl | rfl <;> cases stack <;> rfl
  | _ => cases scalar

theorem readFrom_arrayClose {items : List Json} {outer : List Frame} {expecting : Expecting}
    (closes : expecting = .item ∨ expecting = .separator) (rest : List Token) :
    readFrom (.array items :: outer) expecting (.arrayClose :: rest)
      = resume (.array items.reverse) outer rest := by
  rcases closes with rfl | rfl <;> cases outer <;> rfl

theorem readFrom_objectClose {fields : List (Option String × Json)} {key : Option String}
    {outer : List Frame} {expecting : Expecting}
    (closes : expecting = .field ∨ expecting = .separator) (rest : List Token) :
    readFrom (.object fields key :: outer) expecting (.objectClose :: rest)
      = resume (.object fields.reverse) outer rest := by
  rcases closes with rfl | rfl <;> cases outer <;> rfl

/-- A key and its colon. -/
theorem readFrom_key {fields : List (Option String × Json)} {key : Option String}
    {outer : List Frame} {expecting : Expecting}
    (opens : expecting = .field ∨ expecting = .key) (k : Option String) (rest : List Token) :
    readFrom (.object fields key :: outer) expecting (.string k :: .colon :: rest)
      = readFrom (.object fields k :: outer) .value rest := by
  rcases opens with rfl | rfl <;> rfl

mutual

/-- A value is read back from its tokens. -/
theorem readFrom_tokens : ∀ (v : Json), v.Printable → ∀ {stack : List Frame}
    {expecting : Expecting}, expecting = .value ∨ expecting = .item → ∀ rest : List Token,
    readFrom stack expecting (v.tokens ++ rest) = resume v stack rest
  | .null, _, _, _, value, rest | .boolean _, _, _, _, value, rest
  | .numeral _, _, _, _, value, rest | .string _, _, _, _, value, rest =>
    readFrom_scalar value rfl rest
  | .broken, printable, _, _, _, _ => (printable _ (List.mem_singleton.mpr rfl)).elim
  | .array items, printable, stack, expecting, value, rest => by
    have opened : readFrom stack expecting ((Json.array items).tokens ++ rest)
        = readFrom (.array [] :: stack) .item (Json.itemTokens items ++ .arrayClose :: rest) := by
      rw [Json.tokens, List.cons_append, List.cons_append, List.append_assoc]
      rcases value with rfl | rfl <;> rfl
    rw [opened]
    by_cases nonempty : items = []
    · rw [nonempty]
      exact readFrom_arrayClose (.inl rfl) rest
    · exact readFrom_items items (fun t member => printable t
        (Json.mem_tokens_array.mpr (.inr (.inr member)))) nonempty [] (.inr rfl) rest
  | .object fields, printable, stack, expecting, value, rest => by
    have opened : readFrom stack expecting ((Json.object fields).tokens ++ rest)
        = readFrom (.object [] none :: stack) .field
            (Json.fieldTokens fields ++ .objectClose :: rest) := by
      rw [Json.tokens, List.cons_append, List.cons_append, List.append_assoc]
      rcases value with rfl | rfl <;> rfl
    rw [opened]
    by_cases nonempty : fields = []
    · rw [nonempty]
      exact readFrom_objectClose (.inl rfl) rest
    · exact readFrom_fields fields (fun t member => printable t
        (Json.mem_tokens_object.mpr (.inr (.inr member)))) nonempty [] none (.inl rfl) rest

/-- Items are read back from their tokens, behind those that have been read. -/
theorem readFrom_items : ∀ (items : List Json), (∀ t ∈ Json.itemTokens items, t.Printable) →
    items ≠ [] → ∀ (done : List Json) {outer : List Frame} {expecting : Expecting},
    expecting = .value ∨ expecting = .item → ∀ rest : List Token,
    readFrom (.array done :: outer) expecting (Json.itemTokens items ++ .arrayClose :: rest)
      = resume (.array (done.reverse ++ items)) outer rest
  | [], _, nonempty, _, _, _, _, _ => absurd rfl nonempty
  | [v], printable, _, done, outer, expecting, value, rest => by
    rw [Json.itemTokens, readFrom_tokens v printable value]
    refine (readFrom_arrayClose (.inr rfl) rest).trans ?_
    rw [List.reverse_cons]
  | v :: w :: more, printable, _, done, outer, expecting, value, rest => by
    rw [Json.itemTokens_cons_cons] at printable ⊢
    rw [List.append_assoc, List.cons_append,
      readFrom_tokens v (fun t member => printable t (List.mem_append_left _ member)) value]
    refine (readFrom_items (w :: more) (fun t member => printable t (List.mem_append_right _
      (List.mem_cons_of_mem _ member))) nofun (v :: done) (.inl rfl) rest).trans ?_
    rw [List.reverse_cons, List.append_assoc]
    rfl

/-- Fields are read back from their tokens, behind those that have been read. -/
theorem readFrom_fields : ∀ (fields : List (Option String × Json)),
    (∀ t ∈ Json.fieldTokens fields, t.Printable) → fields ≠ [] →
    ∀ (done : List (Option String × Json)) (key : Option String) {outer : List Frame}
    {expecting : Expecting}, expecting = .field ∨ expecting = .key → ∀ rest : List Token,
    readFrom (.object done key :: outer) expecting (Json.fieldTokens fields ++ .objectClose :: rest)
      = resume (.object (done.reverse ++ fields)) outer rest
  | [], _, nonempty, _, _, _, _, _, _ => absurd rfl nonempty
  | [(k, v)], printable, _, done, key, outer, expecting, opens, rest => by
    rw [Json.fieldTokens] at printable ⊢
    rw [List.cons_append, List.cons_append, readFrom_key opens,
      readFrom_tokens v (fun t member => printable t (List.mem_cons_of_mem _
        (List.mem_cons_of_mem _ member))) (.inl rfl)]
    refine (readFrom_objectClose (.inr rfl) rest).trans ?_
    rw [List.reverse_cons]
  | (k, v) :: f :: more, printable, _, done, key, outer, expecting, opens, rest => by
    rw [Json.fieldTokens_cons_cons] at printable ⊢
    rw [List.cons_append, List.cons_append, List.append_assoc, List.cons_append,
      readFrom_key opens, readFrom_tokens v (fun t member => printable t (List.mem_cons_of_mem _
        (List.mem_cons_of_mem _ (List.mem_append_left _ member)))) (.inl rfl)]
    refine (readFrom_fields (f :: more) (fun t member => printable t (List.mem_cons_of_mem _
      (List.mem_cons_of_mem _ (List.mem_append_right _ (List.mem_cons_of_mem _ member))))) nofun
      ((k, v) :: done) none (.inr rfl) rest).trans ?_
    rw [List.reverse_cons, List.append_assoc]
    rfl

end

theorem read_of_spelled {v : Json} (printable : v.Printable) {text : String}
    (spelled : Token.Spelled text.toList v.tokens) : read text = ⟨v, true⟩ := by
  unfold read
  rw [spelled.lex, ← List.append_nil v.tokens, readFrom_tokens v printable (.inl rfl)]
  rfl

/-- A tree is read back from its text on one line. -/
theorem read_compact {v : Json} (printable : v.Printable) : read v.compact = ⟨v, true⟩ := by
  refine read_of_spelled printable ?_
  unfold Json.compact
  rw [String.toList_ofList]
  exact Json.spelled_compact (Json.chain_tokens v) printable

/-- A tree is read back from its indented text, whatever blanks follow. -/
theorem read_pretty {v : Json} (printable : v.Printable) {tail : String}
    (blank : ∀ c ∈ tail.toList, Token.Lexing.isSpace c = true) (ends : Token.Ends tail.toList) :
    read (v.pretty ++ tail) = ⟨v, true⟩ := by
  refine read_of_spelled printable ?_
  unfold Json.pretty
  rw [String.toList_append, String.toList_ofList]
  exact Json.spelled_indented (Json.chain_tokens v) printable blank ends 0

end Document

namespace Json

variable {α : Type} {v : Json}

theorem readText_of_read {text : String} (whole : Document.read text = ⟨v, true⟩)
    (reader : Reader α) : readText reader text = reader depthLimit v := by
  unfold readText
  simp only [whole, if_true]
  exact bind_pure _

/-- A reader of the text of a tree on one line reads the tree. -/
theorem readText_compact (printable : v.Printable) (reader : Reader α) :
    readText reader v.compact = reader depthLimit v :=
  readText_of_read (Document.read_compact printable) reader

/-- A reader of the indented text of a tree reads the tree. -/
theorem readText_pretty (printable : v.Printable) (reader : Reader α) :
    readText reader (v.pretty ++ "\n") = reader depthLimit v := by
  refine readText_of_read (Document.read_pretty printable ?_ ?_) reader
  · exact List.forall_mem_singleton.mpr rfl
  · exact Token.ends_cons [] rfl

end Json

end Heapscope
