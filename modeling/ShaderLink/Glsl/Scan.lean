import ShaderLink.Glsl.Word

/-!
# Scanning shader code

A **scan** reads something from the front of a text and answers it with the rest, or fails
(`Glsl.Scan`). Alternatives start again from the same place, and a scan that has succeeded is never
reconsidered when a later one fails.

The scans below read the tokens that signatures, prototypes and declarations are made of. Between
tokens stand spaces, tabs, carriage returns and line feeds; names are made of ASCII letters, digits
and underscores.
-/

namespace ShaderLink.Glsl

/-- Reads from the front of a text; `none` is failure. -/
abbrev Scan := StateT (List Char) Option

/-- The characters that separate tokens. -/
def isSpace (c : Char) : Bool :=
  c = ' ' ∨ c = '\t' ∨ c = '\r' ∨ c = '\n'

/-- The characters that a name starts with. -/
def isNameStart (c : Char) : Bool :=
  c.isAlpha ∨ c = '_'

/-- The characters that a name goes on with. -/
def isNamePart (c : Char) : Bool :=
  c.isAlphanum ∨ c = '_'

/-- A text is a name when it starts as one and goes on as one. -/
def isName : List Char → Bool
  | [] => false
  | c :: s => isNameStart c && s.all isNamePart

namespace Scan

/-- Any number of separating characters. -/
def spaces : Scan Unit :=
  fun s => some ((), s.dropWhile isSpace)

/-- At least one separating character. -/
def spaces1 : Scan Unit
  | c :: s => if isSpace c then some ((), s.dropWhile isSpace) else none
  | [] => none

/-- One given character. -/
def char (expected : Char) : Scan Unit
  | c :: s => if c = expected then some ((), s) else none
  | [] => none

/-- A given text. -/
def text (expected : List Char) : Scan Unit :=
  fun s => if expected.isPrefixOf s then some ((), s.drop expected.length) else none

/-- The longest name at the front. -/
def name : Scan String
  | c :: s =>
    if isNameStart c then some (String.ofList (c :: s.takeWhile isNamePart), s.dropWhile isNamePart)
    else none
  | [] => none

/-- A name that is a builtin type. -/
def typeName : Scan String := do
  let word ← name
  guard (isType word)
  return word

/-- A name that is a qualifier's keyword. -/
def qualifier : Scan Qualifier := do
  let word ← name
  Qualifier.ofKeyword? word

/-- A name behind a dollar sign, which may stand in braces. -/
def placeholder : Scan String := do
  char '$'
  (do char '{'; let word ← name; char '}'; return word) <|> name

/-- A comma with what separates it from its neighbours. -/
def comma : Scan Unit := do
  spaces
  char ','
  spaces

/-- The items that follow the first one of a list, each behind a comma. A comma that no item
follows is left in place, and the list ends before it. -/
def moreItems {α : Type} (item : Scan α) (s : List Char) : List α × List Char :=
  match (comma *> item : Scan α) s with
  | none => ([], s)
  | some (a, r) =>
    -- holds for every scan that only takes from the front, since a comma has been read
    if r.length < s.length then
      let (rest, t) := moreItems item r
      (a :: rest, t)
    else ([a], r)
termination_by s.length

/-- One item or more, with commas between them. -/
def items1 {α : Type} (item : Scan α) : Scan (List α) := do
  let first ← item
  let rest ← fun s => some (moreItems item s)
  return first :: rest

/-- Any number of items, with commas between them. -/
def items {α : Type} (item : Scan α) : Scan (List α) :=
  items1 item <|> pure []

end Scan

/-- What a scan reads at the front of a text, spaces before it skipped. -/
def scan? {α : Type} (scan : Scan α) (s : List Char) : Option α :=
  ((Scan.spaces *> scan : Scan α) s).map (·.1)

end ShaderLink.Glsl
