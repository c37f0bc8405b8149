import ShaderLink.Traversal

/-!
# Finding a cycle

`Traversal.cycleWitness? next nodes` answers with a member of a cycle among the nodes, or with
`none` if there is none.

A traversal leaves a node after everything it leads to, unless something leads back. Going through
the nodes in the reverse of that order, each has to come after all its predecessors; the first one
that does not lies on a cycle together with a predecessor that is still to come. That predecessor is
the witness, the one that comes first among the `nodes` if there are several. A node that leads to
itself is a witness before all others.
-/

namespace ShaderLink.Traversal

variable {α : Type} [DecidableEq α]

/-- The first node that comes before one of its predecessors, given by that predecessor. The nodes
in `before` have been gone through. -/
def lateEdge? (next : α → List α) (nodes : List α) : List α → List α → Option α
  | _, [] => none
  | before, a :: rest =>
    match nodes.find? fun p => p ≠ a ∧ p ∉ before ∧ a ∈ next p with
    | some p => some p
    | none => lateEdge? next nodes (a :: before) rest

/-- A member of a cycle, if there is a cycle. The traversal starts from the nodes in the order
of `starts`. -/
def cycleWitness? (next : α → List α) (nodes starts : List α) : Option α :=
  match (preorder next starts starts).find? fun a => a ∈ next a with
  | some a => some a
  | none => lateEdge? next nodes [] (postorder next starts starts).reverse

example : cycleWitness? (fun n => if n = 0 then [] else [n / 2]) [3, 2, 1] [3, 2, 1] = none := by
  decide +kernel
example : cycleWitness? (fun n => [(n + 1) % 3]) [0, 1, 2] [0, 1, 2] = some 2 := by
  decide +kernel

end ShaderLink.Traversal
