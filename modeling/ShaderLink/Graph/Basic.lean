import ShaderLink.Graph.Referrers
import ShaderLink.Object

/-!
# The graph of shader objects

A graph holds objects under their identifiers, the record of who refers to whom, and two kinds of
counters: a **revision** for each object, which grows whenever its definition could come out
differently, and one **generation** for the whole graph, which grows with every change.

This module holds the graph with its look-ups and the steps that edits are made of.
`Graph.Walk` asks questions that follow edges, `Graph.Chains` derives the types of chains, and
`Graph.Touch` passes a change on to everything it shows in.
-/

namespace ShaderLink

/-- An object in a graph. -/
structure Node where
  object : Object
  revision : Nat
deriving DecidableEq

/-- Objects that refer to each other. -/
structure Graph where
  nodes : Std.ExtTreeMap ObjectId Node
  referrers : Referrers
  generation : Nat
deriving DecidableEq

namespace Graph

/-- The graph without objects. -/
def empty : Graph := ⟨∅, .empty, 0⟩

/-! ### Looking things up -/

/-- The object of an identifier, if it is there. -/
def find? (g : Graph) (id : ObjectId) : Option Object :=
  (g.nodes[id]?).map (·.object)

/-- The identifiers of the objects that are there, ascending. -/
def ids (g : Graph) : List ObjectId := g.nodes.keys

/-- The object of an identifier, which has to be there. -/
def get (g : Graph) (id : ObjectId) : Except LinkError Object :=
  match g.find? id with
  | some object => pure object
  | none => throw (.unknownObject id)

/-- The function of an identifier. -/
def getFunction (g : Graph) (id : ObjectId) : Except LinkError Snippet := do
  match ← g.get id with
  | .function s => return s
  | _ => throw (.notAFunction id)

/-- The variable of an identifier. -/
def getVariable (g : Graph) (id : ObjectId) : Except LinkError Variable := do
  match ← g.get id with
  | .var v => return v
  | _ => throw (.notAVariable id)

/-- The chain of an identifier. -/
def getChain (g : Graph) (id : ObjectId) : Except LinkError Chain := do
  match ← g.get id with
  | .chain c => return c
  | _ => throw (.notAChain id)

/-- The signature of an object that can be called. -/
def callable (g : Graph) (id : ObjectId) : Except LinkError Signature := do
  match (← g.get id).signature? with
  | some signature => return signature
  | none => throw (.notAFunction id)

/-- The signature of an object, if it is there and has one. -/
def signature? (g : Graph) (id : ObjectId) : Option Signature :=
  (g.find? id).bind Object.signature?

/-- How often the definition of an object may have changed. -/
def revision (g : Graph) (id : ObjectId) : Except LinkError Nat :=
  match g.nodes[id]? with
  | some node => pure node.revision
  | none => throw (.unknownObject id)

/-- The objects to emit before an object; none if it is not there. -/
def dependencies (g : Graph) (id : ObjectId) : List ObjectId :=
  ((g.find? id).map Object.dependencies).getD []

/-- The objects that refer to an object, ascending. -/
def referrersOf (g : Graph) (id : ObjectId) : List ObjectId :=
  g.referrers.sources id

/-! ### The steps of an edit -/

/-- The graph one generation later. -/
def advance (g : Graph) : Graph :=
  { g with generation := g.generation + 1 }

/-- Puts another object in the place of the one that is there. -/
def setObject (g : Graph) (id : ObjectId) (object : Object) : Graph :=
  { g with nodes := g.nodes.modify id fun node => { node with object } }

/-- Raises the revision of an object that is there. -/
def bump (g : Graph) (id : ObjectId) : Graph :=
  { g with nodes := g.nodes.modify id fun node => { node with revision := node.revision + 1 } }

/-- Records that `source` refers to `target` once more. -/
def addReference (g : Graph) (target source : ObjectId) : Graph :=
  { g with referrers := g.referrers.add target source }

/-- Records that `source` refers to `target` once less. -/
def removeReference (g : Graph) (target source : ObjectId) : Graph :=
  { g with referrers := g.referrers.remove target source }

/-- Records one more reference of `source` to each of the targets. -/
def addReferences (g : Graph) (targets : List ObjectId) (source : ObjectId) : Graph :=
  targets.foldl (fun g target => g.addReference target source) g

/-- Records one reference less of `source` to each of the targets. -/
def removeReferences (g : Graph) (targets : List ObjectId) (source : ObjectId) : Graph :=
  targets.foldl (fun g target => g.removeReference target source) g

/-- Adds an object with its references. Its revision starts from zero. -/
def insert (g : Graph) (id : ObjectId) (object : Object) : Graph :=
  let g := g.addReferences object.references id
  { g with nodes := g.nodes.insert id ⟨object, 0⟩, generation := g.generation + 1 }

/-! ### What the steps leave alone -/

theorem get_eq_ok_iff {g : Graph} {id : ObjectId} {object : Object} :
    g.get id = .ok object ↔ g.find? id = some object := by
  unfold get
  cases g.find? id <;> simp [pure, Except.pure, throw, throwThe, MonadExceptOf.throw]

@[simp] theorem nodes_addReferences (g : Graph) (targets : List ObjectId) (source : ObjectId) :
    (g.addReferences targets source).nodes = g.nodes := by
  unfold addReferences
  induction targets generalizing g with
  | nil => rfl
  | cons t ts ih => exact ih _

@[simp] theorem nodes_removeReferences (g : Graph) (targets : List ObjectId) (source : ObjectId) :
    (g.removeReferences targets source).nodes = g.nodes := by
  unfold removeReferences
  induction targets generalizing g with
  | nil => rfl
  | cons t ts ih => exact ih _

/-- The object that was inserted is there. -/
theorem find?_insert_self (g : Graph) (id : ObjectId) (object : Object) :
    (g.insert id object).find? id = some object := by
  simp [insert, find?]

end Graph

end ShaderLink
