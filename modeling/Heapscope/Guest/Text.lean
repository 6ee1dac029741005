import Heapscope.Guest.Basic

/-!
# Reading modules without code

The text of a module is a parenthesised form.  Modules are read here as far as they hold no
instructions: imports, functions with an empty body, memories and globals.  Such a module can show
that it is no module, that it is ill typed, or that it asks for more than the bindings.

* `Form.readAll?` -- the forms of a text;
* `ModuleSource.ofText` -- what the text of a file is found to be.
-/

namespace Heapscope

/-- A parenthesised form. -/
inductive Form where
  | word (s : String)
  | quoted (s : String)
  | group (items : List Form)

/-- The word or the quotation that is being read, last character first. -/
inductive FormPart where
  | nothing
  | word (cs : List Char)
  | quoted (cs : List Char)

/-- A text of forms being read. -/
structure FormReading where
  part : FormPart := .nothing
  /-- The forms of the innermost open group, last first. -/
  items : List Form := []
  /-- The same for the groups around it. -/
  outer : List (List Form) := []

namespace FormReading

/-- Ends a word. -/
def flush (s : FormReading) : FormReading :=
  match s.part with
  | .word cs => { s with part := .nothing, items := .word (.ofList cs.reverse) :: s.items }
  | .nothing | .quoted _ => s

/-- Reads a character outside of quotations. -/
def plain (s : FormReading) (c : Char) : Option FormReading :=
  if c = ' ' ∨ c = '\t' ∨ c = '\n' ∨ c = '\r' then some s.flush
  else if c = '(' then
    let s := s.flush
    some { s with items := [], outer := s.items :: s.outer }
  else if c = ')' then
    let s := s.flush
    match s.outer with
    | [] => none
    | items :: outer => some { s with items := .group s.items.reverse :: items, outer }
  else if c = '"' then some { s.flush with part := .quoted [] }
  else match s.part with
    | .word cs => some { s with part := .word (c :: cs) }
    | _ => some { s with part := .word [c] }

/-- Reads a character. -/
def step (s : FormReading) (c : Char) : Option FormReading :=
  match s.part with
  | .quoted cs =>
    if c = '"' then
      some { s with part := .nothing, items := .quoted (.ofList cs.reverse) :: s.items }
    else some { s with part := .quoted (c :: cs) }
  | _ => s.plain c

/-- The forms that have been read, if the text may end here. -/
def finish? (s : FormReading) : Option (List Form) :=
  match s.flush with
  | ⟨.nothing, items, []⟩ => some items.reverse
  | _ => none

end FormReading

/-- The forms of a text. -/
def Form.readAll? (cs : List Char) : Option (List Form) :=
  (cs.foldlM FormReading.step {}).bind FormReading.finish?

/-- The type of a function: the types of its parameters and of its results. -/
structure Signature where
  params : List String := []
  results : List String := []
deriving DecidableEq, Repr

namespace Signature

/-- So many words in, and as many out. -/
def words (params results : Nat) : Signature :=
  ⟨List.replicate params "i32", List.replicate results "i32"⟩

/-- The type of a binding. -/
def ofBinding? : String → Option Signature
  | "getTotalMemory" | "getThreadId" | "isDebug" => some (words 0 1)
  | "optionLength" => some (words 2 1)
  | "readOption" => some (words 4 1)
  | "annotateRange" => some { words 3 0 with params := ["i32", "i32", "i32", "f64"] }
  | "annotateText" | "annotateColor" => some (words 3 0)
  | "annotatePointer" | "logInfo" | "logWarn" | "logError" => some (words 2 0)
  | "removeRange" | "removeText" | "removePointer" | "removeColor" => some (words 1 0)
  | _ => none

/-- The types that forms name; words that start with a dollar sign are names of parameters. -/
def types (items : List Form) : List String :=
  items.filterMap fun
    | .word s => if s.startsWith "$" then none else some s
    | _ => none

/-- The signature that forms spell. -/
def ofForms? : List Form → Option Signature
  | [] => some {}
  | .group (.word "param" :: items) :: rest =>
    (ofForms? rest).map fun s => { s with params := types items ++ s.params }
  | .group (.word "result" :: items) :: rest =>
    (ofForms? rest).map fun s => { s with results := types items ++ s.results }
  | _ => none

end Signature

/-- One part of a module. -/
inductive ModuleField where
  /-- Something that is asked for, and whether it is a binding. -/
  | need (binding : Bool)
  /-- A function without instructions, and its exported name. -/
  | function (name : Option String) (type : Signature)
  | memory
  | value

namespace ModuleField

/-- The name that a function is known by inside the module is of no effect. -/
def dropName : List Form → List Form
  | .word s :: rest => if s.startsWith "$" then rest else .word s :: rest
  | l => l

def ofForm? : Form → Option ModuleField
  | .group [.word "import", .quoted space, .quoted name, .group (.word "func" :: type)] => do
    let type ← Signature.ofForms? (dropName type)
    some (.need (space == "env" && Signature.ofBinding? name == some type))
  | .group [.word "import", .quoted _, .quoted _, .group _] => some (.need false)
  | .group (.word "func" :: items) =>
    match dropName items with
    | .group [.word "export", .quoted name] :: type =>
      (Signature.ofForms? type).map (.function (some name))
    | type => (Signature.ofForms? type).map (.function none)
  | .group (.word "memory" :: _) => some memory
  | .group (.word "global" :: _) => some value
  | _ => none

/-- Whether a function that does nothing has the type that it should have. -/
def wellTyped : ModuleField → Bool
  | function _ type => type.results.isEmpty
  | _ => true

/-- Whether a part asks for no more than a binding. -/
def linkable : ModuleField → Bool
  | need binding => binding
  | _ => true

/-- The release function, if a part is one under its name. -/
def free? : ModuleField → Option (Export (Int32 → Code Unit))
  | function (some "free") type =>
    some (if type = Signature.words 1 0 then .code fun _ => .finish () else .mistyped)
  | _ => none

/-- The allocation function; one without instructions returns nothing. -/
def malloc? : ModuleField → Option (Export (Int32 → Code Int32))
  | function (some "malloc") _ => some .mistyped
  | _ => none

end ModuleField

namespace ModuleSource

/-- What a module with the given parts is. -/
def ofFields (fields : List ModuleField) : ModuleSource :=
  if !fields.all ModuleField.wellTyped then .illTyped
  else if !fields.all ModuleField.linkable then .unlinkable
  else .guest {
    malloc := (fields.findSome? ModuleField.malloc?).getD .absent
    free := (fields.findSome? ModuleField.free?).getD .absent }

/-- How the binary form of a module starts: a magic word, and version one. -/
def magic : List Char := ['\x00', 'a', 's', 'm']

/-- What the text of a file is found to be.  The binary form is known by its first word, and is read
if it holds nothing else than the version. -/
def ofText (text : String) : ModuleSource :=
  if magic.isPrefixOf text.toList then
    if text.toList = magic ++ ['\x01', '\x00', '\x00', '\x00'] then .guest {} else .illTyped
  else match Form.readAll? text.toList with
    | some [.group (.word "module" :: items)] =>
      ((ModuleField.dropName items).mapM ModuleField.ofForm?).elim .unreadable ofFields
    | _ => .unreadable

end ModuleSource

end Heapscope
