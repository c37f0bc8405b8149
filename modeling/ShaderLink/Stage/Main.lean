import ShaderLink.Stage
import ShaderLink.Store.Edits

/-!
# The main code of a stage

A stage starts from the code of its `main`, in which `$hook` stands for whatever is attached at that
hook. Further assignments can be put at the end of `main`: of builtin outputs, and of varyings,
which take the type of what they are assigned.

The variables, functions and prototypes of the code keep their names, and so do the arguments of its
functions (`StageMain.staticNames`). No object is given one of these names.
-/

namespace ShaderLink

/-- An object attached to a stage. -/
structure Attachment where
  hook : String
  object : ObjectId
  /-- The name that the object has to be emitted under. -/
  requiredName : Option String
deriving DecidableEq

/-- What an assignment at the end of `main` writes. -/
inductive Output where
  | builtin (target : String)
  | varying (id : ObjectId)
deriving DecidableEq

/-- The code of a stage with all that is attached to it. -/
structure StageMain where
  template : Template
  staticNames : List String
  attachments : List Attachment
  /-- Outputs in the order in which they were first assigned, with what is assigned to them. -/
  outputs : List (Output × ObjectId)
deriving DecidableEq

namespace StageMain

/-- The name of the entry point, which is no name of the code's own. -/
def entryPoint : String := "main"

/-- The names that code declares: variables, then functions with their arguments, then
prototypes. -/
def declaredNames (code : List Char) : List String :=
  let global := (ProgramVariable.findAll code).map (·.name)
  let functions := (Signature.findAll code).filter fun s => !s.anonymous && s.name != entryPoint
  let prototypes := (Prototype.findAll code).map (·.name)
  (global ++ functions.flatMap (fun s => s.name :: s.arguments.map (·.name)) ++
    prototypes).eraseDups

/-- The stage of the given code, dedented. -/
def ofCode (code : String) : Except LinkError StageMain :=
  match Text.dedent code.toList with
  | none => throw .splitCharacter
  | some dedented =>
    pure { template := Template.ofChars dedented, staticNames := declaredNames dedented
           attachments := [], outputs := [] }

/-- The stage with one attachment more. -/
def attach (m : StageMain) (a : Attachment) : StageMain :=
  { m with attachments := m.attachments ++ [a] }

/-- What is attached at a hook first. -/
def at? (m : StageMain) (hook : String) : Option Attachment :=
  m.attachments.find? (·.hook == hook)

/-- The outputs that the language provides. -/
def builtinOutputs : List String := ["gl_Position", "gl_PointSize", "gl_FragColor", "gl_FragData"]

/-- Whether a target begins as a builtin output. -/
def isBuiltinTarget (target : String) : Bool :=
  builtinOutputs.any fun output => output.toList.isPrefixOf target.toList

/-- The outputs with another expression for one of them, or with one more. -/
def setOutput (output : Output) (expression : ObjectId) :
    List (Output × ObjectId) → List (Output × ObjectId)
  | [] => [(output, expression)]
  | (o, e) :: rest =>
    if o = output then (o, expression) :: rest else (o, e) :: setOutput output expression rest

/-- Ends `main` by assigning an expression to a builtin output, or to a part of one. -/
def assign (m : StageMain) (target : String) (expression : ObjectId) :
    Except LinkError StageMain :=
  if isBuiltinTarget target then
    pure { m with outputs := setOutput (.builtin target) expression m.outputs }
  else throw (.invalidTarget target)

/-- Ends `main` by assigning an expression to a varying, and links the varying to it. -/
def assignVarying (m : StageMain) (varying expression : ObjectId) : Edit StageMain := do
  let v ← Store.ask (·.getVariable varying)
  unless v.qualifier = some .varying do throw (.invalidTarget v.name)
  Store.link varying expression
  return { m with outputs := setOutput (.varying varying) expression m.outputs }

/-- The objects of an output: a varying comes before what is assigned to it. -/
def outputObjects : Output × ObjectId → List ObjectId
  | (.builtin _, expression) => [expression]
  | (.varying id, expression) => [id, expression]

/-- The roots of a stage: what is attached, then what the outputs need. -/
def roots (m : StageMain) : List ObjectId :=
  m.attachments.map (·.object) ++ m.outputs.flatMap outputObjects

end StageMain

end ShaderLink
