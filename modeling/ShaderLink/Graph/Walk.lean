import ShaderLink.Graph.Basic
import ShaderLink.Traversal

/-!
# Questions that follow edges

* `Graph.reaches` follows dependencies and decides whether an object would need another one.
* `Graph.linksTo` follows the links of variables.
* `Graph.type?` follows links and callees to the type of an object.

The first is a traversal. The other two have at most one edge to follow from each object, so they
are walks of a bounded length: a walk over more objects than there are would meet one twice and
never end.
-/

namespace ShaderLink.Graph

/-- Everything that following dependencies from some roots can meet. -/
def horizon (g : Graph) (roots : List ObjectId) : List ObjectId :=
  roots ++ g.ids ++ g.ids.flatMap g.dependencies

/-- Whether an object is, or transitively depends on, another. -/
def reaches (g : Graph) (source target : ObjectId) : Bool :=
  (Traversal.preorder g.dependencies (g.horizon [source]) [source]).contains target

/-- The steps that a walk without repetition can take. -/
def walkBound (g : Graph) : Nat := g.nodes.size + 1

/-- Whether a walk of at most `n` links leads from one variable to an object. -/
def linksWithin (g : Graph) : Nat → ObjectId → ObjectId → Bool
  | 0, _, _ => false
  | n + 1, source, target =>
    match g.find? source with
    | some (.var { link := some l, .. }) => l = target || linksWithin g n l target
    | _ => false

/-- Whether links lead from one variable to an object. -/
def linksTo (g : Graph) (source target : ObjectId) : Bool :=
  g.linksWithin g.walkBound source target

/-- The type found by a walk over at most `n` objects. -/
def typeWithin (g : Graph) : Nat → ObjectId → Option String
  | 0, _ => none
  | n + 1, id =>
    match g.find? id with
    | none | some (.text _) => none
    | some (.function s) => some s.signature.result
    | some (.chain c) => some c.signature.result
    | some (.call c) => typeWithin g n c.callee
    | some (.var v) =>
      match v.type, v.link with
      | some type, _ => some type
      | none, some link => typeWithin g n link
      | none, none => none

/-- The type of an object: that of a variable or of what it is linked to, or what a function
returns. -/
def type? (g : Graph) (id : ObjectId) : Option String :=
  g.typeWithin g.walkBound id

end ShaderLink.Graph
