/-!
# Why code could not be read

The ways in which a function or a declaration can fail to be read, and the text of each.
-/

namespace ShaderLink

/-- Why code could not be read. -/
inductive ParseFailure where
  /-- No line starts a function definition; the first line that is not blank, trimmed. -/
  | noSignature (firstLine : String)
  /-- A declaration without the right number of words. -/
  | declarationForm (declaration : String)
  | unknownQualifier (word : String)
  | unknownType (word : String)
  | invalidName (word : String)
  /-- A literal that is none of the declared type. -/
  | invalidLiteral (type : String) (word : String)
  /-- A constant declared without its value. -/
  | missingValue (name : String)
deriving DecidableEq, Repr

namespace ParseFailure

/-- What a failure says. -/
def message : ParseFailure → String
  | noSignature line => "no function signature found (first line: `" ++ line ++ "`)"
  | declarationForm declaration =>
    "declarations have the form `qualifier dtype name` or `const dtype name value`, got `" ++
      declaration ++ "`"
  | unknownQualifier word => "unknown qualifier `" ++ word ++ "`"
  | unknownType word => "unknown type `" ++ word ++ "`"
  | invalidName word => "invalid variable name `" ++ word ++ "`"
  | invalidLiteral type word => "invalid `" ++ type ++ "` literal `" ++ word ++ "`"
  | missingValue name => "const `" ++ name ++ "` needs a value"

end ParseFailure

end ShaderLink
