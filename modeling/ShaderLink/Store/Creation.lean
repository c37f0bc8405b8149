import ShaderLink.Store.Basic

/-!
# Creating objects

Every kind of object has an edit that makes one and adds it to the store. An object that is
refused after its identifier was handed out leaves a gap in the numbering: this happens to calls
and chains, whose parts are checked against the graph.
-/

namespace ShaderLink.Store

open MonadExcept (ofExcept)

/-- A function of the given code. -/
def function (code : String) : Edit ObjectId := do
  let snippet ← ofExcept (Snippet.ofCode code)
  create (.function snippet)

/-- A function that needs other objects to be emitted before it. -/
def functionRequiring (code : String) (requires : List ObjectId) : Edit ObjectId := do
  for id in requires do
    let _ ← ask (·.get id)
  let snippet ← ofExcept (Snippet.ofCode code)
  create (.function { snippet with requires })

/-- A variable that takes qualifier and type from its first value. -/
def unassigned (name : String) : Edit ObjectId :=
  create (.var (.unassigned name))

/-- A variable that keeps what its declaration says. -/
def declare (declaration : String) : Edit ObjectId := do
  match Declaration.parse declaration with
  | .ok d => create (.var (.ofDeclaration d))
  | .error failure => throw (.unreadable failure)

/-- A variable with a value. -/
def valued (name : String) (value : Value) : Edit ObjectId :=
  create (.var (.ofValue name value))

/-- A varying, typed now or by what it is linked to. -/
def varying (name : String) (type : Option String) : Edit ObjectId :=
  create (.var (.varying name type))

/-- An expression that is written out as it stands. -/
def text (code : String) : Edit ObjectId :=
  create (.text code)

/-- A call. The callee has to take as many arguments as are given. -/
def call (callee : ObjectId) (arguments : List ObjectId) : Edit ObjectId := do
  let _ ← ask (·.get callee)
  for argument in arguments do
    let _ ← ask (·.get argument)
  -- the identifier is spent even if the call is refused
  let id ← allocate
  let c : Call := { callee, arguments }
  ask (·.checkCall c)
  modifyGraph (·.insert id (.call c))
  return id

/-- A chain of the given members, which keeps its name or is named by the linker. -/
def chain (name : String) (anonymous : Bool) (members : List ObjectId) : Edit ObjectId := do
  let id ← allocate
  add id (.chain { Chain.empty name anonymous with members })

end ShaderLink.Store
