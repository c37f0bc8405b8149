import ShaderLink.Object.Snippet
import ShaderLink.Object.Variable

/-!
# Shader objects

What the linker puts together: variables, functions, chains of functions, texts and calls. Texts
and calls are **written out** where they are used; the others are **emitted**, each with a name and
a definition of its own.

An object **depends** on the objects that have to be emitted before it, and **refers** to those
whose name or type shows in its own code. A function that merely requires an object depends on it
and does not refer to it; a variable refers to what it is linked to and does not depend on it.
-/

namespace ShaderLink

/-- A function that calls its members one after the other, each on the result of the one before.
The first takes the arguments of the chain, and the chain returns what the last returns. -/
structure Chain where
  /-- Name, and the types as they were when they were last derived. -/
  signature : Signature
  members : List ObjectId
  /-- Whether the types could not be derived after the last change. -/
  stale : Bool
deriving DecidableEq

namespace Chain

/-- A chain without members, which takes and returns nothing. -/
def empty (name : String) (anonymous : Bool) : Chain :=
  { signature := { name, anonymous, arguments := [], result := Glsl.voidType }
    members := [], stale := false }

/-- The chain with newly derived types. -/
def withTypes (c : Chain) (types : List Argument × String) : Chain :=
  { c with
    signature := { c.signature with arguments := types.1, result := types.2 }
    stale := false }

end Chain

/-- A call of a function or chain, written out where it is used. -/
structure Call where
  callee : ObjectId
  arguments : List ObjectId
deriving DecidableEq

/-- A shader object. -/
inductive Object where
  | var (v : Variable)
  | function (s : Snippet)
  | chain (c : Chain)
  /-- An expression written out as it stands. -/
  | text (code : String)
  | call (c : Call)
deriving DecidableEq

namespace Object

/-- The name an object was made with. -/
def name? : Object → Option String
  | var v => some v.name
  | function s => some s.name
  | chain c => some c.signature.name
  | text _ | call _ => none

/-- Whether the linker chooses the name. -/
def anonymous : Object → Bool
  | var v => !v.declared
  | function s => s.anonymous
  | chain c => c.signature.anonymous
  | text _ | call _ => false

/-- The objects to emit before this one, in order. -/
def dependencies : Object → List ObjectId
  | function s => s.dependencies
  | chain c => c.members
  | call c => c.callee :: c.arguments
  | var _ | text _ => []

/-- The objects whose name or type shows in the code of this one, once for each time. -/
def references : Object → List ObjectId
  | var v => v.link.toList
  | function s => s.boundObjects
  | chain c => c.members
  | call c => c.callee :: c.arguments
  | text _ => []

/-- The names that the code of the object uses for itself. -/
def staticNames : Object → List String
  | function s => s.staticNames
  | _ => []

/-- The signature of what can be called. -/
def signature? : Object → Option Signature
  | function s => some s.signature
  | chain c => some c.signature
  | var _ | text _ | call _ => none

/-- Whether the object is emitted with a definition. -/
def emitted : Object → Bool
  | text _ | call _ => false
  | _ => true

end Object

end ShaderLink
