import ShaderLink.Glsl.Declaration
import ShaderLink.Glsl.Signature
import ShaderLink.LinkError
import ShaderLink.Template
import ShaderLink.Text.Replacement

/-!
# Functions given as code

A snippet is the code of a function with placeholders for the objects it uses. If the name of the
function is itself a placeholder the function is anonymous, and that placeholder stands for
whatever name the linker chooses.

The code is dedented and read once. **Replacements** are applied to the dedented code, in the order
in which their texts were first given, before placeholders are looked for; the template, the
placeholders and the names that the code declares are read again after each, the signature is not.
-/

namespace ShaderLink

/-- The code of a function and what is bound to its placeholders. -/
structure Snippet where
  /-- The dedented code, without replacements. -/
  code : String
  signature : Signature
  /-- The pieces of the code with replacements. -/
  template : Template
  /-- The placeholders that objects can be bound to. -/
  placeholders : List String
  /-- The names that the code gives to its arguments and variables. -/
  staticNames : List String
  bindings : Std.ExtTreeMap String ObjectId
  /-- Objects to emit before this one although the code does not mention them. -/
  requires : List ObjectId
  replacements : List (String × String)
deriving DecidableEq

namespace Snippet

/-- The name of the function, which is the placeholder's if the function is anonymous. -/
def name (s : Snippet) : String := s.signature.name

/-- Whether the linker chooses the name of the function. -/
def anonymous (s : Snippet) : Bool := s.signature.anonymous

/-- Whether a placeholder stands for the function's own name. -/
def isOwnName (s : Snippet) (placeholder : String) : Bool :=
  s.anonymous && placeholder == s.name

/-- Takes template, placeholders and names from the given code. -/
def read (s : Snippet) (code : String) : Snippet :=
  let template := Template.parse code
  let declared := (ProgramVariable.findAll code.toList).map (·.name)
  { s with
    template
    placeholders := template.placeholders.filter (!s.isOwnName ·)
    staticNames := (s.signature.arguments.map (·.name) ++ declared).eraseDups }

/-- The snippet of a piece of code. -/
def ofCode (code : String) : Except LinkError Snippet := do
  let some dedented := Text.dedent code.toList | throw .splitCharacter
  let code := String.ofList dedented
  match Signature.parse code with
  | .error failure => throw (.unreadable failure)
  | .ok signature =>
    let blank : Snippet :=
      { code, signature, template := [], placeholders := [], staticNames := [], bindings := ∅
        requires := [], replacements := [] }
    return blank.read code

/-- The bound objects, in the order of the placeholders. -/
def boundObjects (s : Snippet) : List ObjectId :=
  s.placeholders.filterMap (s.bindings[·]?)

/-- Required objects, then bound ones. -/
def dependencies (s : Snippet) : List ObjectId := s.requires ++ s.boundObjects

/-- Binding. Answers `none` when the object is bound to the placeholder already. -/
def bind (s : Snippet) (placeholder : String) (object : ObjectId) :
    Except LinkError (Option Snippet) := do
  unless placeholder ∈ s.placeholders do throw (.unknownPlaceholder s.name placeholder)
  match s.bindings[placeholder]? with
  | some current =>
    if current = object then return none else throw (.alreadyBound s.name placeholder current)
  | none => return some { s with bindings := s.bindings.insert placeholder object }

/-- Takes away the binding of a placeholder. -/
def unbind (s : Snippet) (placeholder : String) : Snippet :=
  { s with bindings := s.bindings.erase placeholder }

/-- The replacements with one more, or with another text for one that is there. -/
def setReplacement (find put : String) : List (String × String) → List (String × String)
  | [] => [(find, put)]
  | (f, p) :: rest => if f = find then (f, put) :: rest else (f, p) :: setReplacement find put rest

/-- The code with all replacements made, one after the other. -/
def replacedCode (s : Snippet) : String :=
  s.replacements.foldl
    (fun code r => String.ofList (Text.replace r.1.toList r.2.toList code.toList)) s.code

/-- Replacing. Answers `none` when the replacement is there already, otherwise the snippet and
the objects whose placeholders are gone. Their bindings are gone as well. -/
def replace (s : Snippet) (find put : String) : Option (Snippet × List ObjectId) :=
  if (s.replacements.find? (·.1 == find)).any (·.2 == put) then none
  else
    let s := { s with replacements := setReplacement find put s.replacements }
    -- the signature stays the one of the code without replacements
    let s := s.read s.replacedCode
    let kept := s.bindings.filter fun placeholder _ => placeholder ∈ s.placeholders
    let lost := s.bindings.filter fun placeholder _ => placeholder ∉ s.placeholders
    some ({ s with bindings := kept }, lost.toList.map (·.2))

/-- Refuses a snippet that has a placeholder nothing is bound to. -/
def checkBound (s : Snippet) : Except LinkError Unit :=
  match s.placeholders.find? (!s.bindings.contains ·) with
  | some placeholder => throw (.unbound s.name placeholder)
  | none => pure ()

end Snippet

end ShaderLink
