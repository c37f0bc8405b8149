import ShaderLink.Graph.Chains

/-!
# Passing changes on

When the definition of an object may have changed, so may the definitions of the objects in whose
code its type shows: chains it is a member of, calls it takes part in, and variables linked to it.
These are its **carriers**, and they pass the change on to their own carriers. A function that an
object is bound to shows only its name, and names are the linker's business.

`Graph.touch` raises the revision of everything a change is passed on to, each object once, and
derives the types of the chains on the way.
-/

namespace ShaderLink.Graph

/-- Whether an object passes on a change of an object that it refers to. -/
def carries (g : Graph) (target source : ObjectId) : Bool :=
  match g.find? source with
  | some (.chain _) | some (.call _) => true
  | some (.var v) => v.link = some target
  | _ => false

/-- The objects that pass on a change of an object, ascending. -/
def carriers (g : Graph) (id : ObjectId) : List ObjectId :=
  (g.referrersOf id).filter (g.carries id)

/-- Everything that a change of an object shows in, itself first. The carriers found last are
followed first. -/
def affected (g : Graph) (id : ObjectId) : List ObjectId :=
  Traversal.preorder (fun x => (g.carriers x).reverse) (id :: g.ids) [id]

/-- Derives the types of the chains that refer to an object. -/
def refreshReferrers (g : Graph) (id : ObjectId) : Graph :=
  (g.referrersOf id).foldl (fun g source => (g.refresh source).2) g

/-- Records a change of the definition of an object. -/
def touch (g : Graph) (id : ObjectId) : Graph :=
  (g.affected id).foldl (fun g x => (g.bump x).refreshReferrers x) g.advance

end ShaderLink.Graph
