import ShaderLink.Definition
import ShaderLink.Naming.Assignment

/-!
# Linking

`Linker.link` puts the sources of some stages together. It collects what the stages need, names it,
and writes each stage: the version, the definitions of its objects, and its `main` with hooks
replaced and outputs assigned at the end.

A linker remembers names and definitions from one linking to the next. A definition is used again
as long as neither the object's name nor its revision has changed and no object that shows in it
has been renamed: renaming an object **invalidates** its own definition and those of everything that
refers to it, directly or through calls. The linker also lists the objects whose definitions the
last linking had to write.

Linking can fail while collecting and while naming, and remembers what it did before.
-/

namespace ShaderLink

/-- How sources are generated. -/
structure Settings where
  naming : NamingStyle
  /-- The language version that every stage states, if any. -/
  version : Option String
  /-- Whether objects are kept from being called like words of the language. -/
  reserveKeywords : Bool
deriving DecidableEq

/-- A definition with the name and the revision it was written for. -/
structure Definition where
  name : String
  revision : Nat
  code : String
deriving DecidableEq

/-- The sources of some stages. -/
structure Linked where
  sources : Stages String
  /-- The emitted objects, in the order in which they were first emitted. -/
  objects : List ObjectId
deriving DecidableEq

/-- What is remembered between linkings. -/
structure Linker where
  settings : Settings
  names : Names
  definitions : Std.ExtTreeMap ObjectId Definition
  /-- The objects whose definitions the last linking wrote. -/
  recompiled : List ObjectId

namespace Settings

/-- Pretty names, no version, and the words of the language kept free. -/
def default : Settings := ⟨.pretty, none, true⟩

end Settings

namespace Linker

open MonadExcept (ofExcept)

/-- A linker that remembers nothing. -/
def new (settings : Settings) : Linker := ⟨settings, ∅, ∅, []⟩

/-! ### Forgetting -/

/-- The objects that a change of name shows in: those that refer to the object, and through those
that are written out, those that refer to them. -/
def mentioning (g : Graph) (id : ObjectId) : List ObjectId :=
  let next := fun x =>
    if (g.find? x).any (!·.emitted) then (g.referrersOf x).reverse else []
  Traversal.preorder next g.referrers.allSources (g.referrersOf id).reverse

/-- Drops the definitions that a change of name shows in. -/
def invalidate (l : Linker) (g : Graph) (id : ObjectId) : Linker :=
  { l with definitions := (id :: mentioning g id).foldl (fun d x => d.erase x) l.definitions }

/-- Drops everything that is remembered about an object. -/
def forget (l : Linker) (g : Graph) (id : ObjectId) : Linker :=
  { l with names := l.names.erase id }.invalidate g id

/-! ### Writing stages -/

/-- The definition of an object, written only if the remembered one is out of date. -/
def define (g : Graph) (id : ObjectId) : EStateM LinkError Linker String := do
  let l ← get
  let name ← ofExcept (Graph.nameIn l.names id)
  let revision ← ofExcept (g.revision id)
  match l.definitions[id]?.filter fun d => d.name = name ∧ d.revision = revision with
  | some d => return d.code
  | none =>
    let code := (← ofExcept (g.definition? l.names id)).getD ""
    set { l with
      recompiled := l.recompiled ++ [id]
      definitions := l.definitions.insert id { name, revision, code } }
    return code

/-- The lines that assign the outputs of a stage. -/
def outputLines (g : Graph) (names : Names) : List (Output × ObjectId) → Except LinkError String
  | [] => pure ""
  | (output, expression) :: rest => do
    let target ← match output with
      | .builtin target => pure target
      | .varying id => Graph.nameIn names id
    let value ← g.expression names expression
    let lines ← outputLines g names rest
    return "    " ++ target ++ " = " ++ value ++ ";\n" ++ lines

/-- Puts text in front of the last closing brace of code, or at the end if there is none. -/
def insertBeforeEnd (lines code : List Char) : List Char :=
  let tail := code.reverse.takeWhile (· ≠ '}')
  match code.reverse.dropWhile (· ≠ '}') with
  | [] => code ++ lines
  | _ :: front => front.reverse ++ lines ++ '}' :: tail.reverse

/-- The `main` of a stage, with the outputs assigned at its end. -/
def mainText (g : Graph) (names : Names) (m : StageMain) : Except LinkError String := do
  let code ← m.template.substitute fun hook =>
    match m.at? hook with
    | some a => g.expression names a.object
    | none => throw (.unbound StageMain.entryPoint hook)
  let lines ← outputLines g names m.outputs
  return String.ofList (insertBeforeEnd lines.toList code.toList)

/-- The source of a stage whose definitions have been written. -/
def assemble (version : Option String) (definitions : List String) (main : String) : String :=
  let head := (version.map ("#version " ++ ·)).toList
  "\n".intercalate (head ++ definitions ++ if main.isEmpty then [] else [main])

/-- Writes the source of a stage. -/
def writeStage (g : Graph) (order : List ObjectId) (m : StageMain) :
    EStateM LinkError Linker String := do
  let definitions ← order.mapM (define g)
  let l ← get
  let main ← ofExcept (mainText g l.names m)
  return assemble l.settings.version definitions main

/-- The names and invalidations of a linking, or why it fails. -/
def plan (l : Linker) (g : Graph) (stages : Stages StageMain) :
    Except LinkError (Closure × Linker) := do
  -- nothing is remembered until both steps have succeeded
  let c ← Closure.collect g stages
  let a ← Assignment.ofClosure g l.settings.naming l.settings.reserveKeywords l.names c
  return (c, a.renamed.foldl (fun l id => l.invalidate g id) { l with names := a.names })

/-- Links some stages. -/
def link (g : Graph) (stages : Stages StageMain) : EStateM LinkError Linker Linked := do
  modify fun l => { l with recompiled := [] }
  let (c, l) ← ofExcept ((← get).plan g stages)
  set l
  let vertex ← stages.vertex.mapM (writeStage g (c.stages.vertex.getD []))
  let fragment ← stages.fragment.mapM (writeStage g (c.stages.fragment.getD []))
  return { sources := ⟨vertex, fragment⟩, objects := c.objects }

/-- The definitions of an object and of everything it depends on. -/
def linkObject (g : Graph) (id : ObjectId) : Except LinkError String := do
  let m : StageMain :=
    { template := [], staticNames := []
      attachments := [{ hook := "object", object := id, requiredName := none }], outputs := [] }
  match (link g { vertex := some m, fragment := none }).run (new .default) with
  | .ok linked _ => return linked.sources.vertex.getD ""
  | .error e _ => throw e

end Linker

end ShaderLink
