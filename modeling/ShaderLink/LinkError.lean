import ShaderLink.Glsl.ParseFailure
import ShaderLink.Object.Id

/-!
# Why linking and editing fail

`LinkError` lists the causes for which an operation on shader objects is refused, and
`LinkError.message` says each of them in words.
-/

namespace ShaderLink

/-- Why an operation on shader objects was refused. -/
inductive LinkError where
  /-- Code that could not be read. -/
  | unreadable (failure : ParseFailure)
  /-- Code whose common indentation ends inside a character of some line. -/
  | splitCharacter
  /-- A variable without qualifier, type or needed value. -/
  | unassigned (variableName : String)
  /-- A placeholder that nothing is bound to. -/
  | unbound (function placeholder : String)
  /-- A placeholder that the code does not have. -/
  | unknownPlaceholder (function placeholder : String)
  /-- A placeholder that something else is bound to. -/
  | alreadyBound (function placeholder : String) (current : ObjectId)
  /-- A fixed name of two objects. -/
  | nameCollision (name : String) (first second : ObjectId)
  /-- A fixed name that is a word of the language. -/
  | reservedName (name : String)
  /-- An object required under a name other than its fixed one. -/
  | requiredNameMismatch (declared required : String)
  /-- A chain member that does not take what the member before it returns. -/
  | chainMismatch (chain source sourceType target targetTypes : String)
  /-- A value that does not fit the declaration of its variable. -/
  | typeMismatch (variableName expected found : String)
  /-- A value for a varying. -/
  | varyingValue (variableName : String)
  /-- An object that is not there. -/
  | unknownObject (id : ObjectId)
  /-- An object that has no name yet. -/
  | unnamed (id : ObjectId)
  | notAFunction (id : ObjectId)
  | notAVariable (id : ObjectId)
  | notAChain (id : ObjectId)
  /-- A position past the end of a chain. -/
  | memberOutOfRange (chain : ObjectId) (index : Nat)
  /-- A call with the wrong number of arguments. -/
  | callArity (function : String) (expected found : Nat)
  /-- A target that `main` may not end by assigning. -/
  | invalidTarget (target : String)
  /-- An object that would need itself. -/
  | cyclicDependency (id : ObjectId)
deriving DecidableEq, Repr

namespace LinkError

/-- What an error says. -/
def message : LinkError → String
  | unreadable failure => "failed to parse function: " ++ failure.message
  | splitCharacter => "the common indentation ends inside a character"
  | unassigned name => "variable `" ++ name ++ "` has no qualifier, type or value"
  | unbound function placeholder =>
    "template variable `$" ++ placeholder ++ "` of `" ++ function ++ "` is not bound to any object"
  | unknownPlaceholder function placeholder =>
    "`" ++ function ++ "` has no template variable `$" ++ placeholder ++ "`"
  | alreadyBound function placeholder current =>
    "template variable `$" ++ placeholder ++ "` of `" ++ function ++ "` is already bound to " ++
      current.label
  | nameCollision name first second =>
    "name `" ++ name ++ "` is claimed by both " ++ first.label ++ " and " ++ second.label
  | reservedName name => "`" ++ name ++ "` is a reserved GLSL name"
  | requiredNameMismatch declared required =>
    "`" ++ declared ++ "` cannot be renamed to `" ++ required ++ "`"
  | chainMismatch chain source sourceType target targetTypes =>
    "chain `" ++ chain ++ "` cannot feed `" ++ source ++ "` (" ++ sourceType ++ ") into `" ++
      target ++ "` (" ++ targetTypes ++ ")"
  | typeMismatch name expected found =>
    "variable `" ++ name ++ "` is `" ++ expected ++ "`, cannot assign a `" ++ found ++ "` value"
  | varyingValue name => "cannot assign a value to varying `" ++ name ++ "`"
  | unknownObject id => "no shader object " ++ id.label
  | unnamed id => "shader object " ++ id.label ++ " has not been assigned a name"
  | notAFunction id => "shader object " ++ id.label ++ " is not a function"
  | notAVariable id => "shader object " ++ id.label ++ " is not a variable"
  | notAChain id => "shader object " ++ id.label ++ " is not a function chain"
  | memberOutOfRange chain index =>
    "chain " ++ chain.label ++ " has no member at index " ++ toString index
  | callArity function expected found =>
    "`" ++ function ++ "` takes " ++ toString expected ++ " arguments, called with " ++
      toString found
  | invalidTarget target => "`" ++ target ++ "` cannot be assigned at the end of main"
  | cyclicDependency id => "shader object " ++ id.label ++ " depends on itself"

end LinkError

end ShaderLink
