import ShaderLink.Linker
import ShaderLink.Program.Error

/-!
# Programs with hooks

A program is made of the main code of a vertex and of a fragment stage. Every prototype in the code
is a **hook**: one object at a time can be attached to it, and is then emitted under the hook's name
in the hook's stage. An attached object has to have the types of the hook's prototype.

A program holds identifiers only. The operations of this module need no store; those that change
objects as well are in `Program.Callbacks`, and `Program.Draw` links when something changed and
brings a device up to date.
-/

namespace ShaderLink

/-- A prototype that an object can be attached to. -/
structure Hook where
  stage : Stage
  prototype : Prototype
deriving DecidableEq

/-- A vertex and a fragment stage with what is attached to their hooks. -/
structure Program where
  vertex : StageMain
  fragment : StageMain
  /-- The hooks by name. -/
  hooks : Std.ExtTreeMap String Hook
  /-- The attached objects by hook. -/
  attached : Std.ExtTreeMap String ObjectId
  /-- Objects that are attached no longer and that the linker still remembers. -/
  detached : List ObjectId
  linker : Linker
  /-- Whether hooks or outputs changed since the last draw that linked. -/
  dirty : Bool
  /-- The generation of the graph at the last draw that linked. -/
  generation : Option Nat
  /-- The sources that the last draw linked. -/
  linked : Option Linked
  /-- For each name the variable, and the state of it, whose value the device was sent last. -/
  sent : Std.ExtTreeMap String (ObjectId × Nat)

/-- An operation on a program. -/
abbrev ProgramM := EStateM ProgramError Program

namespace Program

open MonadExcept (ofExcept)

/-! ### Making programs -/

/-- Adds the prototypes of a stage to the hooks. -/
def addHooks (stage : Stage) :
    Std.ExtTreeMap String Hook → List Prototype →
      Except ProgramError (Std.ExtTreeMap String Hook)
  | hooks, [] => pure hooks
  | hooks, p :: rest =>
    if hooks.contains p.name then throw (.duplicateHook p.name)
    else addHooks stage (hooks.insert p.name { stage, prototype := p }) rest

/-- A program of the main codes of its stages. A hook may be declared only once. -/
def ofCode (settings : Settings) (vertex fragment : String) : Except ProgramError Program := do
  let vertexMain ← (StageMain.ofCode vertex).mapError .link
  let hooks ← addHooks .vertex ∅ (Prototype.findAll vertex.toList)
  let fragmentMain ← (StageMain.ofCode fragment).mapError .link
  let hooks ← addHooks .fragment hooks (Prototype.findAll fragment.toList)
  return { vertex := vertexMain, fragment := fragmentMain, hooks, attached := ∅, detached := []
           linker := .new settings, dirty := true, generation := none, linked := none, sent := ∅ }

/-- The main code of a stage. -/
def main (p : Program) : Stage → StageMain
  | .vertex => p.vertex
  | .fragment => p.fragment

/-- The program with another main code of a stage. -/
def setMain (p : Program) (m : StageMain) : Stage → Program
  | .vertex => { p with vertex := m, dirty := true }
  | .fragment => { p with fragment := m, dirty := true }

/-! ### Attaching -/

/-- Makes sure that there is a hook. -/
def checkHook (hook : String) : ProgramM Unit := do
  unless (← get).hooks.contains hook do throw (.unknownHook hook)

/-- Notes that an object is attached no longer, unless it is still attached somewhere. -/
def detach (p : Program) (object : ObjectId) : Program :=
  -- it may have been attached to several hooks
  if p.attached.values.contains object then p
  else { p with detached := p.detached ++ [object] }

/-- Attaches an object to a hook, and answers with the object that was attached before. -/
def setHook (hook : String) (object : ObjectId) : ProgramM (Option ObjectId) := do
  checkHook hook
  let p ← get
  let previous := p.attached[hook]?
  let p := { p with attached := p.attached.insert hook object, dirty := true }
  set (match previous with
    | some old => if old = object then p else p.detach old
    | none => p)
  return previous

/-- Frees a hook, and answers with the object that was attached. -/
def unsetHook (hook : String) : ProgramM (Option ObjectId) := do
  checkHook hook
  let p ← get
  let previous := p.attached[hook]?
  if let some old := previous then
    set ({ p with attached := p.attached.erase hook, dirty := true }.detach old)
  return previous

/-- Ends the `main` of a stage by assigning an expression to a builtin output. -/
def assign (stage : Stage) (target : String) (expression : ObjectId) : ProgramM Unit := do
  let p ← get
  match (p.main stage).assign target expression with
  | .ok m => set (p.setMain m stage)
  | .error e => throw (.link e)

/-! ### Linking -/

/-- What is found in an attached object that cannot be called. -/
def shapeOfOther : String := "a variable"

/-- Makes sure that the attached objects have the types of their hooks, in the order of the
hooks' names. -/
def checkAttached (p : Program) (g : Graph) : List (String × ObjectId) → Except ProgramError Unit
  | [] => pure ()
  | (hook, object) :: rest => do
    if let some h := p.hooks[hook]? then
      let expected := h.prototype.shape
      let found := ((g.signature? object).map Signature.shape).getD shapeOfOther
      unless found = expected do throw (.hookMismatch hook expected found)
    p.checkAttached g rest

/-- Checks the hooks: every attached object has the types of its hook. -/
def checkHooks (p : Program) (g : Graph) : Except ProgramError Unit :=
  p.checkAttached g p.attached.toList

/-- The attachments of the hooks of a stage, in the order of the hooks' names. -/
def attachments (p : Program) (stage : Stage) : List Attachment :=
  p.attached.toList.filterMap fun (hook, object) =>
    if (p.hooks[hook]?).any (·.stage = stage) then
      some { hook, object, requiredName := some hook }
    else none

/-- The main codes with everything attached. -/
def stages (p : Program) : Stages StageMain :=
  { vertex := some ((p.attachments .vertex).foldl StageMain.attach p.vertex)
    fragment := some ((p.attachments .fragment).foldl StageMain.attach p.fragment) }

/-- Links a program. Detached objects are forgotten first. -/
def link (g : Graph) : ProgramM Linked := do
  modify fun p =>
    { p with linker := p.detached.foldl (fun l id => l.forget g id) p.linker, detached := [] }
  let p ← get
  ofExcept (p.checkHooks g)
  match (Linker.link g p.stages).run p.linker with
  | .ok linked l =>
    set { p with linker := l }
    return linked
  | .error e l =>
    set { p with linker := l }
    throw (.link e)

end Program

end ShaderLink
