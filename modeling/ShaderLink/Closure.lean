import ShaderLink.Closure.Cycle
import ShaderLink.Stage.Main

/-!
# What the stages need

Linking begins with the **closure** of the stages: for each stage the emitted objects that its roots
depend on, dependencies first, and over all stages each of them once. The closure also holds the
names that attachments require and the names that the stages' own code takes.

`Closure.collect` fails if something the stages need is not there, depends on itself, or could not
be given a definition, if a hook in a `main` has nothing attached, or if an object is required under
a name it cannot have. Once it has succeeded, only names are missing.
-/

namespace ShaderLink

/-- Everything that some stages need. -/
structure Closure where
  /-- The emitted objects of each stage, each after those it depends on. -/
  stages : Stages (List ObjectId)
  /-- The emitted objects of all stages, in the order in which they appear first. -/
  objects : List ObjectId
  /-- The names that objects have to be emitted under. -/
  required : Names
  /-- The names that the code of the stages declares. -/
  reserved : List String
deriving DecidableEq

namespace Closure

/-- The closure of no stages. -/
def empty : Closure := ⟨.none, [], ∅, []⟩

/-- Everything that the roots depend on, in the order of discovery: roots and dependencies found
last are followed first. -/
def discovery (g : Graph) (roots : List ObjectId) : List ObjectId :=
  Traversal.preorder (fun id => (g.dependencies id).reverse) (g.horizon roots) roots.reverse

/-- Makes sure that everything the roots depend on is there, and that nothing depends on itself. -/
def checkReachable (g : Graph) (roots : List ObjectId) : Except LinkError Unit := do
  let found := discovery g roots
  for id in found do
    let _ ← g.get id
  -- an object is first met where it is found or where something found depends on it
  let mentioned := (found.flatMap fun id => id :: g.dependencies id).eraseDups
  match Traversal.cycleWitness? g.dependencies found mentioned with
  | some id => throw (.cyclicDependency id)
  | none => return ()

/-- Makes sure that every hook of a `main` has something attached. -/
def checkHooks (m : StageMain) : Except LinkError Unit :=
  match m.template.placeholders.find? fun hook => (m.at? hook).isNone with
  | some hook => throw (.unbound StageMain.entryPoint hook)
  | none => pure ()

/-- The emitted objects among some, each of which has to be valid. -/
def validated (g : Graph) : List ObjectId → Except LinkError (List ObjectId)
  | [] => pure []
  | id :: rest => do
    g.validate id
    let object ← g.get id
    let emitted ← validated g rest
    return if object.emitted then id :: emitted else emitted

/-- Records the names that attachments require. A name the object already has, or is already
required under, has to be the same. -/
def require (g : Graph) : Names → List Attachment → Except LinkError Names
  | required, [] => pure required
  | required, a :: rest => do
    match a.requiredName with
    | none => require g required rest
    | some name =>
      let object ← g.get a.object
      let declared := object.name?.getD ""
      unless object.anonymous || declared = name do throw (.requiredNameMismatch declared name)
      match required[a.object]? with
      | some previous =>
        unless previous = name do throw (.requiredNameMismatch previous name)
      | none => pure ()
      require g (required.insert a.object name) rest

/-- Adds the objects of a stage. -/
def addStage (g : Graph) (c : Closure) (stage : Stage) (m : StageMain) :
    Except LinkError Closure := do
  checkHooks m
  let order := Traversal.postorder g.dependencies (g.horizon m.roots) m.roots
  let emitted ← validated g order
  let required ← require g c.required m.attachments
  return { stages := c.stages.set emitted stage
           objects := c.objects ++ emitted.filter (· ∉ c.objects)
           required
           reserved := c.reserved ++ m.staticNames }

/-- Collects what some stages need. -/
def collect (g : Graph) (stages : Stages StageMain) : Except LinkError Closure := do
  checkReachable g (stages.toList.flatMap StageMain.roots)
  let c ← match stages.vertex with
    | some m => addStage g empty .vertex m
    | none => pure empty
  match stages.fragment with
  | some m => addStage g c .fragment m
  | none => return c

end Closure

end ShaderLink
