import ShaderLink.Definition.Expression

/-!
# Definitions

The code that is emitted for an object, given the names of all objects (`Graph.definition?`).

* A variable is declared by qualifier, type and name, a constant with its value.
* A function is its template with every placeholder replaced by the expression of what is bound to
  it.
* A chain is a function of its own. Each member's result is kept in a local `result_1`, `result_2`
  and so on, numbered by the member's position, and is what the next member is called with.
-/

namespace ShaderLink.Graph

/-- The declaration of a variable. -/
def variableDefinition (g : Graph) (names : Names) (id : ObjectId) (v : Variable) :
    Except LinkError String := do
  let (qualifier, type) ← g.checkVariable id v
  let name ← nameIn names id
  match v.value.bind Value.literal with
  | some literal =>
    if qualifier = .const then return "const " ++ type ++ " " ++ name ++ " = " ++ literal ++ ";"
    else return qualifier.keyword ++ " " ++ type ++ " " ++ name ++ ";"
  | none => return qualifier.keyword ++ " " ++ type ++ " " ++ name ++ ";"

/-- The code of a function. -/
def functionDefinition (g : Graph) (names : Names) (id : ObjectId) (s : Snippet) :
    Except LinkError String := do
  s.checkBound
  let ownName ← if s.anonymous then nameIn names id else pure s.name
  s.template.substitute fun placeholder =>
    if s.isOwnName placeholder then pure ownName
    else match s.bindings[placeholder]? with
      | some object => g.expression names object
      | none => throw (.unbound s.name placeholder)

/-- The local that holds the result of the member at a position, counted from zero. -/
def resultLocal (position : Nat) : String := "result_" ++ toString (position + 1)

/-- The calls of the members from a position on. `input` is what the next member is called with;
the answer holds the lines and what is left of it in the end. -/
def chainCalls (g : Graph) (names : Names) :
    Nat → String → List ObjectId → Except LinkError (String × String)
  | _, input, [] => pure ("", input)
  | position, input, member :: rest => do
    let s ← g.callable member
    let callee ← nameIn names member
    let call := callee ++ "(" ++ input ++ ");\n"
    if s.result = Glsl.voidType then
      let (lines, last) ← chainCalls g names (position + 1) "" rest
      return ("    " ++ call ++ lines, last)
    else
      let result := resultLocal position
      let (lines, last) ← chainCalls g names (position + 1) result rest
      return ("    " ++ s.result ++ " " ++ result ++ " = " ++ call ++ lines, last)

/-- The code of a chain. -/
def chainDefinition (g : Graph) (names : Names) (id : ObjectId) (c : Chain) :
    Except LinkError String := do
  g.checkChain c
  let name ← nameIn names id
  let s := c.signature
  let parameters := s.arguments.map fun a => a.type ++ " " ++ a.name
  let head := s.result ++ " " ++ name ++ "(" ++ ", ".intercalate parameters ++ ") \x7b\n"
  let (lines, last) ← g.chainCalls names 0 (", ".intercalate (s.arguments.map (·.name))) c.members
  let closing := if s.result = Glsl.voidType then "\x7d" else "    return " ++ last ++ ";\n\x7d"
  return head ++ lines ++ closing

/-- The definition of an object, `none` for objects that are written out where they are
used. -/
def definition? (g : Graph) (names : Names) (id : ObjectId) : Except LinkError (Option String) := do
  match ← g.get id with
  | .var v => some <$> g.variableDefinition names id v
  | .function s => some <$> g.functionDefinition names id s
  | .chain c => some <$> g.chainDefinition names id c
  | .text _ | .call _ => return none

end ShaderLink.Graph
