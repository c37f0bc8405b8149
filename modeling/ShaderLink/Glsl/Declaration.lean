import ShaderLink.Glsl.ParseFailure
import ShaderLink.Glsl.Scan
import ShaderLink.Text.Lines
import ShaderLink.Value

/-!
# Declarations of program variables

Two readers of declarations. `ProgramVariable.findAll` looks through code for lines that declare
variables, `uniform vec4 a, b;` or `float x = 1.0;`. `Declaration.parse` reads a single declaration
given in words, `qualifier dtype name` or `const dtype name value`, and says why it cannot.
-/

namespace ShaderLink

/-- A variable declared in the code of a function or stage. -/
structure ProgramVariable where
  name : String
  qualifier : Option Qualifier
  type : String
deriving DecidableEq, Repr

/-- A declaration given in words. -/
structure Declaration where
  qualifier : Qualifier
  type : String
  name : String
  value : Option Value
deriving DecidableEq

namespace Glsl.Scan

/-- A qualifier if there is one, a type and names, up to an initial value or the end. -/
def declaration : Scan (List ProgramVariable) := do
  let qualifier ← (do let q ← qualifier; spaces1; return some q) <|> pure none
  let type ← typeName
  spaces1
  let names ← items1 name
  spaces
  char '=' <|> char ';'
  return names.map fun name => { name, qualifier, type }

end Glsl.Scan

namespace ProgramVariable

/-- The variables that the lines of a text declare. A line that goes on after an initial value
declares the names before it. -/
def findAll (code : List Char) : List ProgramVariable :=
  ((Text.lines code).filterMap (Glsl.scan? Glsl.Scan.declaration)).flatten

end ProgramVariable

namespace Declaration

/-- The integer of 32 bits that a word writes. -/
def readInt? (word : List Char) : Option Int32 := do
  let n ← readInteger? word
  if Int32.minValue.toInt ≤ n ∧ n ≤ Int32.maxValue.toInt then some (Int32.ofInt n) else none

/-- The value of a type that a word writes. Only numbers and truth values have words. -/
def readLiteral? (type word : String) : Option Value :=
  if type = "float" then (Numeral.read? word.toList).map fun n => .float (Single.ofNumeral n)
  else if type = "int" then (readInt? word.toList).map .int
  else if type = "bool" then
    if word = "true" then some (.bool true)
    else if word = "false" then some (.bool false)
    else none
  else none

/-- A declaration from its words. The faults of a declaration are looked for in the order of the
words; a missing value comes last. -/
def ofWords (qualifier type name : String) (literal : Option String) :
    Except ParseFailure Declaration := do
  let some q := Qualifier.ofKeyword? qualifier | throw (.unknownQualifier qualifier)
  unless Glsl.isType type do throw (.unknownType type)
  unless Glsl.isName name.toList do throw (.invalidName name)
  match literal with
  | some word =>
    let some value := readLiteral? type word | throw (.invalidLiteral type word)
    return { qualifier := q, type, name, value := some value }
  | none =>
    -- the other qualifiers may go without a value
    if q = .const then throw (.missingValue name)
    return { qualifier := q, type, name, value := none }

/-- Reads a declaration given in words. Four words are a declaration only of a constant. -/
def parse (text : String) : Except ParseFailure Declaration :=
  match (Text.words text.toList).map String.ofList with
  | [qualifier, type, name] => ofWords qualifier type name none
  | ["const", type, name, literal] => ofWords "const" type name (some literal)
  | _ => throw (.declarationForm text)

end Declaration

end ShaderLink
