import ShaderLink.Graph.Chains

/-!
# Expressions

What a placeholder is replaced with. An emitted object is mentioned by its name, a text stands for
itself, and a call is written out with its callee's name and its arguments' expressions.

Calls may be nested. An expression is unfolded no deeper than there are objects in the graph: a
deeper one would have to unfold a call inside itself. Calls are made after their parts and never
changed, so this does not happen in a graph that was built by edits.
-/

namespace ShaderLink.Graph

/-- The name that an object has been given. -/
def nameIn (names : Names) (id : ObjectId) : Except LinkError String :=
  match names[id]? with
  | some name => pure name
  | none => throw (.unnamed id)

/-- An expression, unfolded at most `n` deep. -/
def expressionWithin (g : Graph) (names : Names) : Nat → ObjectId → Except LinkError String
  | 0, id => throw (.cyclicDependency id)
  | n + 1, id => do
    match ← g.get id with
    | .text code => return code
    | .call c =>
      let arguments ← c.arguments.mapM fun argument => expressionWithin g names n argument
      let callee ← nameIn names c.callee
      return callee ++ "(" ++ ", ".intercalate arguments ++ ")"
    | _ => nameIn names id

/-- The expression of an object. -/
def expression (g : Graph) (names : Names) (id : ObjectId) : Except LinkError String :=
  g.expressionWithin names g.walkBound id

end ShaderLink.Graph
