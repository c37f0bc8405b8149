import ShaderLink.Closure
import ShaderLink.Naming.Namespace

/-!
# Giving names

The objects of a closure are named in three rounds, each in the order of the closure.

1. Objects with a **fixed** name claim it: the name they are required under, or the name they were
   declared with. A fixed name may be reserved by code, but not be a word of the language.
2. An object without a fixed name **keeps** the name of an earlier linking if that is free.
3. The remaining objects get **fresh** names.

One namespace serves all stages, and the answer (`Assignment`) names the objects that are called
something else than before.
-/

namespace ShaderLink

/-- Names under way. -/
structure Assignment where
  space : Namespace
  /-- The names of this linking, over those of earlier ones. -/
  names : Names
  /-- The objects that have got another name, in order. -/
  renamed : List ObjectId

namespace Assignment

/-- Gives an object a name that it did not have. -/
def rename (a : Assignment) (id : ObjectId) (name : String) : Assignment :=
  { a with names := a.names.insert id name, renamed := a.renamed ++ [id] }

/-- The name that an object must have, if there is one. -/
def fixedName? (required : Names) (id : ObjectId) (object : Object) : Option String :=
  match required[id]? with
  | some name => some name
  | none => if object.anonymous then none else some (object.name?.getD "")

/-- The first round. Answers with the objects that have no fixed name as well. -/
def fix (g : Graph) (required : Names) :
    Assignment → List ObjectId → Except LinkError (Assignment × List ObjectId)
  | a, [] => pure (a, [])
  | a, id :: rest => do
    let object ← g.get id
    match fixedName? required id object with
    | none =>
      let (a, free) ← fix g required a rest
      return (a, id :: free)
    | some name =>
      if a.space.isKeyword name then throw (.reservedName name)
      let space ← a.space.claim name id
      let a := { a with space }
      fix g required (if a.names[id]? = some name then a else a.rename id name) rest

/-- The second round. Answers with the objects that are left without a name as well. -/
def keep : Assignment → List ObjectId → Except LinkError (Assignment × List ObjectId)
  | a, [] => pure (a, [])
  | a, id :: rest => do
    -- the earlier name may have been taken in the meantime
    match a.names[id]?.filter a.space.isFree with
    | some name =>
      let space ← a.space.claim name id
      keep { a with space } rest
    | none =>
      let (a, unnamed) ← keep a rest
      return (a, id :: unnamed)

/-- The third round. -/
def freshen (g : Graph) (style : NamingStyle) :
    Assignment → List ObjectId → Except LinkError Assignment
  | a, [] => pure a
  | a, id :: rest => do
    let base := (← g.get id).name?.getD ""
    let name := a.space.suggest style base id
    let space ← a.space.claim name id
    freshen g style ({ a with space }.rename id name) rest

/-- The names that the functions of a closure use in their code. -/
def staticNames (g : Graph) (ids : List ObjectId) : List String :=
  ids.flatMap fun id => ((g.find? id).map Object.staticNames).getD []

/-- Names the objects of a closure. `names` are those of earlier linkings. -/
def ofClosure (g : Graph) (style : NamingStyle) (keywords : Bool) (names : Names) (c : Closure) :
    Except LinkError Assignment := do
  let space : Namespace :=
    { claimed := ∅, reserved := c.reserved ++ staticNames g c.objects, keywords }
  let (a, free) ← fix g c.required { space, names, renamed := [] } c.objects
  let (a, unnamed) ← keep a free
  freshen g style a unnamed

end Assignment

end ShaderLink
