import ShaderLink.Store.Creation

/-!
# Changing objects

The edits of functions (`bind`, `unbind`, `assign`, `replace`), variables (`setValue`, `link`) and
chains (`append`, `prepend`, `insertMember`, `setMember`, `removeMember`). Each of them keeps the
record of references in step with the objects and touches what it has changed.

No edit makes an object depend on itself, however indirectly, and no links of variables run in a
circle. The edits of functions and variables are checked before anything is changed. Those of
chains change the members first; if the types of the chain cannot be derived afterwards the edit
fails, the members stay changed, and the chain is stale.
-/

namespace ShaderLink.Store

open MonadExcept (ofExcept)

/-- Refuses an edge from `source` to `target` that would close a circle of dependencies. -/
def checkAcyclic (source target : ObjectId) : Edit Unit := do
  let g ← current
  if target = source || g.reaches target source then throw (.cyclicDependency source)

/-! ### Functions -/

/-- Binds an object to a placeholder of a function. What is bound already is left as it is; a
placeholder has to be unbound before something else is bound to it. -/
def bind (function : ObjectId) (placeholder : String) (object : ObjectId) : Edit Unit := do
  let _ ← ask (·.get object)
  checkAcyclic function object
  let snippet ← ask (·.getFunction function)
  match ← ofExcept (snippet.bind placeholder object) with
  | none => return ()
  | some bound =>
    modifyGraph fun g =>
      ((g.setObject function (.function bound)).addReference object function).touch function

/-- Takes an object away from a placeholder, and answers with it. -/
def unbind (function : ObjectId) (placeholder : String) : Edit (Option ObjectId) := do
  let snippet ← ask (·.getFunction function)
  let previous := snippet.bindings[placeholder]?
  if let some object := previous then
    modifyGraph fun g =>
      ((g.setObject function (.function (snippet.unbind placeholder))).removeReference object
        function).touch function
  return previous

/-- Gives a variable a value. Only a change of its definition is passed on. -/
def setValue (id : ObjectId) (value : Value) : Edit Unit := do
  let v ← ask (·.getVariable id)
  let (v, changed) ← ofExcept (v.setValue value)
  modifyGraph fun g =>
    let g := g.setObject id (.var v)
    if changed then g.touch id else g.advance

/-- The name of a variable made for a value at a placeholder. -/
def nameForValue (placeholder : String) (value : Value) : String :=
  (if value.qualifier = .vertexAttribute then "a" else "u") ++ "_" ++ placeholder

/-- Gives a placeholder a value. A variable bound to it takes the value. Otherwise whatever is
bound to it makes way for a new variable, whose name begins with `a_` for a buffer and with `u_`
for anything else. -/
def assign (function : ObjectId) (placeholder : String) (value : Value) : Edit ObjectId := do
  let snippet ← ask (·.getFunction function)
  unless placeholder ∈ snippet.placeholders do
    throw (.unknownPlaceholder snippet.name placeholder)
  if let some bound := snippet.bindings[placeholder]? then
    match ← ask (·.get bound) with
    | .var _ =>
      setValue bound value
      return bound
    | _ => let _ ← unbind function placeholder
  let id ← valued (nameForValue placeholder value) value
  bind function placeholder id
  return id

/-- Puts one text in the place of another in the code of a function. -/
def replace (function : ObjectId) (find put : String) : Edit Unit := do
  let snippet ← ask (·.getFunction function)
  match snippet.replace find put with
  | none => return ()
  | some (replaced, dropped) =>
    modifyGraph fun g =>
      ((g.setObject function (.function replaced)).removeReferences dropped function).touch function

/-! ### Variables -/

/-- Links a variable to an object, whose type it takes if it has none of its own. -/
def link (id other : ObjectId) : Edit Unit := do
  let _ ← ask (·.get other)
  let g ← current
  if id = other || g.linksTo other id then throw (.cyclicDependency id)
  let v ← ask (·.getVariable id)
  modifyGraph fun g =>
    let g := g.setObject id (.var { v with link := some other })
    ((g.removeReferences v.link.toList id).addReference other id).touch id

/-! ### Chains -/

/-- Gives a chain other members, of which `removed` went and `added` came, and fails if its types
cannot be derived from them. -/
def setMembers (id : ObjectId) (c : Chain) (members removed added : List ObjectId) :
    Edit Unit := do
  let g := (← current).setObject id (.chain { c with members })
  let (outcome, g) := ((g.removeReferences removed id).addReferences added id).refresh id
  -- the change is passed on even if the types could not be derived
  modifyGraph fun _ => g.touch id
  ofExcept outcome

/-- Puts a member in front of the one at a position, or at the end if there is none. -/
def insertMember (chain : ObjectId) (index : Nat) (member : ObjectId) : Edit Unit := do
  let c ← ask (·.getChain chain)
  let _ ← ask (·.callable member)
  checkAcyclic chain member
  let index := min index c.members.length
  setMembers chain c (c.members.take index ++ member :: c.members.drop index) [] [member]

/-- Puts a member at the end. -/
def append (chain member : ObjectId) : Edit Unit := do
  let c ← ask (·.getChain chain)
  insertMember chain c.members.length member

/-- Puts a member at the front. -/
def prepend (chain member : ObjectId) : Edit Unit :=
  insertMember chain 0 member

/-- Puts a member in the place of another, and answers with the other. -/
def setMember (chain : ObjectId) (index : Nat) (member : ObjectId) : Edit ObjectId := do
  let _ ← ask (·.callable member)
  checkAcyclic chain member
  let c ← ask (·.getChain chain)
  match c.members[index]? with
  | none => throw (.memberOutOfRange chain index)
  | some previous =>
    setMembers chain c (c.members.set index member) [previous] [member]
    return previous

/-- Takes away the first occurrence of a member, and answers whether there was one. -/
def removeMember (chain member : ObjectId) : Edit Bool := do
  let c ← ask (·.getChain chain)
  if member ∈ c.members then
    setMembers chain c (c.members.erase member) [member] []
    return true
  else return false

end ShaderLink.Store
