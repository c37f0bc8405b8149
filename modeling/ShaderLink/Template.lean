import ShaderLink.Glsl.Scan

/-!
# Templates

Code with placeholders in it. A placeholder is written `$name` or `${name}`, a dollar sign that
should stay is written `$$`, and any other dollar sign stays as well. A template is the list of its
**pieces** (`Template.parse`): runs of text, never two of them in a row, and placeholders.

Substitution (`Template.substitute`) asks for every placeholder from left to right; the first
refusal is the answer.
-/

namespace ShaderLink

/-- A run of text or a placeholder. -/
inductive Piece where
  | text (run : String)
  | placeholder (name : String)
deriving DecidableEq, Repr

/-- Code split into its pieces. -/
abbrev Template := List Piece

namespace Template

/-- Puts a piece in front, joining two runs of text. -/
def push : Piece → Template → Template
  | .text a, .text b :: rest => .text (a ++ b) :: rest
  | piece, rest => piece :: rest

/-- The piece at the front of code that is not empty, and the rest. -/
def next : Char → List Char → Piece × List Char
  | '$', '$' :: s => (.text "$", s)
  | '$', s =>
    match Glsl.Scan.placeholder ('$' :: s) with
    | some (name, rest) => (.placeholder name, rest)
    | none => (.text "$", s)
  | c, s => (.text (String.ofList (c :: s.takeWhile (· ≠ '$'))), s.dropWhile (· ≠ '$'))

/-- The pieces of code. -/
def ofChars : List Char → Template
  | [] => []
  | c :: s =>
    let (piece, rest) := next c s
    -- a piece takes at least one character, so there is always something left to go on with
    push piece (if rest.length ≤ s.length then ofChars rest else [])
termination_by s => s.length

/-- Reads a template. -/
def parse (code : String) : Template := ofChars code.toList

/-- The placeholder names, each once, in the order in which they first appear. -/
def placeholders (t : Template) : List String :=
  (t.filterMap fun
    | .text _ => none
    | .placeholder name => some name).eraseDups

/-- Substitution: the text of the template with every placeholder resolved. A resolver may do
anything besides answering; it may fail, or keep a state from one placeholder to the next. -/
def substituteM {m : Type → Type} [Monad m] (t : Template) (resolve : String → m String) :
    m String := do
  let parts ← t.mapM fun
    | .text run => pure run
    | .placeholder name => resolve name
  return String.join parts

/-- Substitution with a resolver that answers or fails. -/
def substitute {ε : Type} (t : Template) (resolve : String → Except ε String) :
    Except ε String :=
  t.substituteM resolve

end Template

end ShaderLink
