import ShaderLink.Program

/-!
# Programs and their store

The operations that change a program and the store of its objects together: chains of callbacks at
hooks, and outputs that are varyings.

A chain that is attached for callbacks has the hook's name for good. Adding a callback to a free
hook attaches such a chain first, and the chain stays attached if the callback is then refused.
-/

namespace ShaderLink

/-- A program together with the store that its objects are in. -/
structure Workspace where
  program : Program
  store : Store

/-- An operation on a program and its store. -/
abbrev WorkspaceM := EStateM ProgramError Workspace

namespace Workspace

/-- Runs an operation on the program. -/
def onProgram {α : Type} (operation : ProgramM α) : WorkspaceM α := do
  let w ← get
  match operation.run w.program with
  | .ok a program =>
    set { w with program }
    return a
  | .error e program =>
    set { w with program }
    throw e

/-- Runs an edit of the store. -/
def onStore {α : Type} (edit : Edit α) : WorkspaceM α := do
  let w ← get
  match edit.run w.store with
  | .ok a store =>
    set { w with store }
    return a
  | .error e store =>
    set { w with store }
    throw (.link e)

/-- Notes that the program has to be linked. -/
def markDirty : WorkspaceM Unit :=
  modify fun w => { w with program := { w.program with dirty := true } }

/-- Attaches a new chain without members to a hook, and answers with it. -/
def addChain (hook : String) : WorkspaceM ObjectId := do
  onProgram (Program.checkHook hook)
  let chain ← onStore (Store.chain hook false [])
  let _ ← onProgram (Program.setHook hook chain)
  return chain

/-- Makes sure that an object is a chain. -/
def checkIsChain (hook : String) (object : ObjectId) : WorkspaceM Unit := do
  match (← get).store.graph.getChain object with
  | .ok _ => return ()
  | .error _ => throw (.notAChain hook)

/-- Adds a callback to a hook, after the ones it has or before them. -/
def addCallback (hook : String) (function : ObjectId) (first : Bool) : WorkspaceM Unit := do
  let chain ← match (← get).program.attached[hook]? with
    | some chain => pure chain
    | none => addChain hook
  checkIsChain hook chain
  onStore (if first then Store.prepend chain function else Store.append chain function)
  markDirty

/-- Takes a callback away from a hook, and answers whether it was there. -/
def removeCallback (hook : String) (function : ObjectId) : WorkspaceM Bool := do
  onProgram (Program.checkHook hook)
  match (← get).program.attached[hook]? with
  | none => return false
  | some chain =>
    checkIsChain hook chain
    let removed ← onStore (Store.removeMember chain function)
    if removed then markDirty
    return removed

/-- Ends the `main` of the vertex stage by assigning an expression to a varying. -/
def assignVarying (varying expression : ObjectId) : WorkspaceM Unit := do
  let m ← onStore ((← get).program.vertex.assignVarying varying expression)
  modify fun w => { w with program := w.program.setMain m .vertex }

end Workspace

end ShaderLink
