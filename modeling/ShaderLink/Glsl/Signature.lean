import ShaderLink.Glsl.ParseFailure
import ShaderLink.Glsl.Scan
import ShaderLink.Text.Lines

/-!
# Signatures and prototypes

The head of a function definition, `vec4 tint(vec4 color, float scale) {`, is its **signature**;
the same head ended by a semicolon is a **prototype**, whose arguments need no names.

Function definitions are recognised by their signatures alone. A signature is looked for at the
start of every line, spaces skipped, over all of the remaining text (`Signature.findAll`); a
prototype has to stand on one line (`Prototype.findAll`).

The name of a function may be written as a placeholder, `$tint` or `${tint}`. Such a function is
**anonymous**: the linker chooses the name it gets.
-/

namespace ShaderLink

/-- A named argument of a function. -/
structure Argument where
  type : String
  name : String
deriving DecidableEq, Repr

/-- The head of a function definition. -/
structure Signature where
  name : String
  /-- Whether the name was written as a placeholder. -/
  anonymous : Bool
  arguments : List Argument
  result : String
deriving DecidableEq, Repr

/-- The head of a function that is defined elsewhere. -/
structure Prototype where
  name : String
  argumentTypes : List String
  result : String
deriving DecidableEq, Repr

namespace Glsl

/-- The printed form of argument types. -/
def typeList (types : List String) : String :=
  "(" ++ ", ".intercalate types ++ ")"

/-- The printed form of a result with argument types, as in `vec4(vec4, float)`. -/
def shape (result : String) (types : List String) : String :=
  result ++ typeList types

namespace Scan

/-- A list in parentheses. The word `void` stands for no items, and once it has been read nothing
else is tried. -/
def parenthesized {α : Type} (item : Scan α) : Scan (List α) := do
  char '('
  spaces
  -- `void` is read as a text, not as a name: a longer name that starts with it fails below
  let found ← (text voidType.toList *> pure []) <|> items item
  spaces
  char ')'
  return found

/-- A type and a name. -/
def argument : Scan Argument := do
  let type ← typeName
  spaces1
  let name ← name
  return { type, name }

/-- A type, and a name if there is one. -/
def argumentType : Scan String := do
  let type ← typeName
  (spaces1 *> name *> pure ()) <|> pure ()
  return type

/-- A function's name, and whether it is written as a placeholder. -/
def functionName : Scan (String × Bool) :=
  (do return (← placeholder, true)) <|> (do return (← name, false))

/-- The head of a definition up to its opening brace. -/
def signature : Scan Signature := do
  let result ← typeName
  spaces1
  let (name, anonymous) ← functionName
  spaces
  let arguments ← parenthesized argument
  spaces
  char '{'
  return { name, anonymous, arguments, result }

/-- A head up to its semicolon. -/
def prototype : Scan Prototype := do
  let result ← typeName
  spaces1
  let name ← name
  spaces
  let argumentTypes ← parenthesized argumentType
  spaces
  char ';'
  return { name, argumentTypes, result }

end Scan

end Glsl

namespace Signature

/-- The printed form of a signature's types. -/
def shape (s : Signature) : String :=
  Glsl.shape s.result (s.arguments.map (·.type))

/-- The signatures read from the line starts of a text. A signature below empty lines is read from
each of these lines. -/
def findAll (code : List Char) : List Signature :=
  (Text.lineSuffixes code).filterMap (Glsl.scan? Glsl.Scan.signature)

/-- The signature read from the first line start that has one. -/
def find? (code : List Char) : Option Signature :=
  (Text.lineSuffixes code).findSome? (Glsl.scan? Glsl.Scan.signature)

/-- Reads the first signature of a text. -/
def parse (code : String) : Except ParseFailure Signature :=
  match find? code.toList with
  | some found => pure found
  | none =>
    let firstLine := (Text.lines code.toList).find? (!Text.isBlankLine ·)
    throw (.noSignature (String.ofList (Text.trim (firstLine.getD []))))

/-- The first signature is the first of all signatures. -/
theorem find?_eq_head?_findAll (code : List Char) : find? code = (findAll code).head? := by
  simp [find?, findAll, List.head?_filterMap]

end Signature

namespace Prototype

/-- The printed form of a prototype's types. -/
def shape (p : Prototype) : String :=
  Glsl.shape p.result p.argumentTypes

/-- The prototypes of a text, at most one for each line. -/
def findAll (code : List Char) : List Prototype :=
  (Text.lines code).filterMap (Glsl.scan? Glsl.Scan.prototype)

end Prototype

end ShaderLink
