import ShaderLink.Graph.Touch

/-!
# The store and its edits

A **store** is a graph together with the identifier that the next object will get. An **edit** is
an operation on a store that answers with a value or an error (`Edit`). What an edit has done before
it fails stays done; the edits of the next modules say which of them fail only before they do
anything.
-/

namespace ShaderLink

/-- A graph and the first identifier that has not been handed out. -/
structure Store where
  graph : Graph
  fresh : ObjectId
deriving DecidableEq

/-- An operation on a store. -/
abbrev Edit := EStateM LinkError Store

namespace Store

/-- A store without objects. -/
def empty : Store := ⟨.empty, ⟨1⟩⟩

/-- Hands out an identifier. -/
def allocate : Edit ObjectId :=
  modifyGet fun s => (s.fresh, { s with fresh := s.fresh.next })

/-- The graph as it is. -/
def current : Edit Graph := return (← get).graph

/-- Changes the graph. -/
def modifyGraph (f : Graph → Graph) : Edit Unit :=
  modify fun s => { s with graph := f s.graph }

/-- Asks the graph, and fails as the answer does. -/
def ask {α : Type} (question : Graph → Except LinkError α) : Edit α := do
  MonadExcept.ofExcept (question (← get).graph)

/-- Adds an object under a new identifier. -/
def create (object : Object) : Edit ObjectId := do
  let id ← allocate
  modifyGraph (·.insert id object)
  return id

/-- Adds an object under an identifier it already has. The members of a chain have to be callable,
and its types are derived again. An object that is there under the identifier is replaced; what it
referred to stays recorded. -/
def add (id : ObjectId) (object : Object) : Edit ObjectId := do
  let object ← match object with
    | .chain c => do
      for member in c.members do
        let _ ← ask (·.callable member)
      let types ← ask (·.deriveTypes c.members)
      pure (Object.chain (c.withTypes types))
    | other => pure other
  modifyGraph (·.insert id object)
  return id

/-- Takes an object out of the graph. Whatever refers to it goes on doing so. -/
def remove (id : ObjectId) : Edit Object := do
  let object ← ask (·.get id)
  modifyGraph fun g =>
    ({ g with nodes := g.nodes.erase id }.removeReferences object.references id).touch id
  return object

end Store

end ShaderLink
