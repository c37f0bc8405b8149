import ShaderLink.Graph.Walk

/-!
# Chains, and what can be emitted

A chain takes what its first member takes and returns what its last member returns
(`Graph.deriveTypes`). That is derived again whenever a member changes (`Graph.refresh`); a chain
whose types cannot be derived is marked stale and keeps the ones it had.

`Graph.checkChain` makes sure that the members can be called one after the other: each takes
exactly one argument, of the type that the one before it returns, or no argument after one that
returns nothing. `Graph.validate` makes sure of the same for objects of every kind: what passes it
can be given a definition.
-/

namespace ShaderLink.Graph

/-- The arguments of the first member and the result of the last one. -/
def deriveTypes (g : Graph) (members : List ObjectId) :
    Except LinkError (List Argument × String) := do
  match members.head?, members.getLast? with
  | some first, some last =>
    let arguments := (← g.callable first).arguments
    let result := (← g.callable last).result
    return (arguments, result)
  | _, _ => return ([], Glsl.voidType)

/-- Derives the types of a chain again. The answer is the failure, if there is one, and the graph
with the chain's new types or with the chain marked stale. -/
def refresh (g : Graph) (chain : ObjectId) : Except LinkError Unit × Graph :=
  match g.getChain chain with
  | .error e => (.error e, g)
  | .ok c =>
    match g.deriveTypes c.members with
    | .error e => (.error e, g.setObject chain (.chain { c with stale := true }))
    | .ok types => (.ok (), g.setObject chain (.chain (c.withTypes types)))

/-- What a chain's next member is called with. -/
inductive Flow where
  /-- The arguments of the chain. -/
  | start
  /-- The result of a member, by name and type. -/
  | result (source type : String)

/-- Whether a member can be called with what flows into it. -/
def Flow.accepts (s : Signature) : Flow → Bool
  | start => true
  | result _ type =>
    if type = Glsl.voidType then s.arguments.isEmpty else s.arguments.map (·.type) = [type]

/-- Makes sure that members can be called one after the other. -/
def checkMembers (g : Graph) (chain : String) : Flow → List ObjectId → Except LinkError Unit
  | _, [] => pure ()
  | flow, member :: rest => do
    let s ← g.callable member
    match flow with
    | .result source type =>
      unless flow.accepts s do
        throw (.chainMismatch chain source type s.name (Glsl.typeList (s.arguments.map (·.type))))
    | .start => pure ()
    checkMembers g chain (.result s.name s.result) rest

/-- Makes sure that a chain can be called. A stale chain has to have types by now. -/
def checkChain (g : Graph) (c : Chain) : Except LinkError Unit := do
  if c.stale then
    let _ ← g.deriveTypes c.members
  g.checkMembers c.signature.name .start c.members

/-- Makes sure that a call passes as many arguments as its callee takes. -/
def checkCall (g : Graph) (c : Call) : Except LinkError Unit :=
  match g.signature? c.callee with
  | none => throw (.notAFunction c.callee)
  | some s =>
    if s.arguments.length = c.arguments.length then pure ()
    else throw (.callArity s.name s.arguments.length c.arguments.length)

/-- Makes sure that a variable can be declared, and answers with its qualifier and type. A constant
also needs a value that has a literal. -/
def checkVariable (g : Graph) (id : ObjectId) (v : Variable) :
    Except LinkError (Qualifier × String) :=
  match v.qualifier, g.type? id with
  | some q, some type =>
    if q = .const ∧ v.value.bind Value.literal = none then throw (.unassigned v.name)
    else pure (q, type)
  | _, _ => throw (.unassigned v.name)

/-- Validation: makes sure that an object can be given a definition, names aside. -/
def validate (g : Graph) (id : ObjectId) : Except LinkError Unit := do
  match ← g.get id with
  | .var v => let _ ← g.checkVariable id v
  | .function s => s.checkBound
  | .chain c => g.checkChain c
  | .call c => g.checkCall c
  | .text _ => return ()

end ShaderLink.Graph
