/-!
# Depth-first traversal

A traversal follows the successors of the things it meets, deep before wide, and meets nothing
twice. It is the list of its **visits**: a thing is entered, then everything it leads to that has
not been met, and then it is left. Entering order and leaving order are the two orders that the
rest of the library works with.

* `Traversal.visits` keeps the visits still to be made on a stack, together with the things that
  may still be entered. It ends because whatever is entered stops being enterable.
* `Traversal.preorder` lists things as they are entered, `Traversal.postorder` as they are left.

Only things of the given `domain` are entered; a caller passes one that holds everything
reachable.
-/

namespace ShaderLink

/-- One step of a traversal. -/
inductive Visit (α : Type) where
  | enter (a : α)
  | leave (a : α)
deriving DecidableEq, Repr

namespace Traversal

variable {α : Type} [DecidableEq α]

/-- The steps that entering the given things can still take. -/
def weight (next : α → List α) (unseen : List α) : Nat :=
  unseen.foldr (fun a steps => (next a).length + 2 + steps) 0

/-- All things but one. -/
def without (a : α) (unseen : List α) : List α :=
  unseen.filter (· ≠ a)

omit [DecidableEq α] in
theorem weight_cons (next : α → List α) (b : α) (bs : List α) :
    weight next (b :: bs) = (next b).length + 2 + weight next bs :=
  rfl

omit [DecidableEq α] in
/-- Taking things away leaves no more steps. -/
theorem weight_filter_le (next : α → List α) (p : α → Bool) (unseen : List α) :
    weight next (unseen.filter p) ≤ weight next unseen := by
  induction unseen with
  | nil => exact Nat.le_refl _
  | cons b bs ih =>
    rw [List.filter_cons, weight_cons]
    split
    · rw [weight_cons]; omega
    · omega

/-- Entering a thing uses up its steps. -/
theorem weight_without (next : α → List α) {a : α} {unseen : List α} (h : a ∈ unseen) :
    weight next (without a unseen) + ((next a).length + 2) ≤ weight next unseen := by
  induction unseen with
  | nil => cases h
  | cons b bs ih =>
    rw [without, List.filter_cons, weight_cons]
    split
    · rename_i hb
      have hb : b ≠ a := by simpa using hb
      have := ih (List.mem_of_ne_of_mem (Ne.symm hb) h)
      rw [without] at this
      rw [weight_cons]
      omega
    · rename_i hb
      obtain rfl : b = a := by simpa using hb
      have := weight_filter_le next (· ≠ b) bs
      omega

/-- The visits made from a stack of pending ones. -/
def visits (next : α → List α) : List (Visit α) → List α → List (Visit α)
  | [], _ => []
  | .leave a :: stack, unseen => .leave a :: visits next stack unseen
  | .enter a :: stack, unseen =>
    if a ∈ unseen then
      -- the successors go on top of the stack, so they are entered before `a` is left
      .enter a ::
        visits next ((next a).map .enter ++ .leave a :: stack) (without a unseen)
    else visits next stack unseen
termination_by stack unseen => stack.length + weight next unseen
decreasing_by
  · simp only [List.length_cons]; omega
  -- the visits pushed here were paid for by the weight of `a`
  · have := weight_without next ‹a ∈ unseen›
    simp only [List.length_cons, List.length_append, List.length_map]
    omega
  · simp only [List.length_cons]; omega

/-- The visits made from roots, first root first. -/
def run (next : α → List α) (domain roots : List α) : List (Visit α) :=
  visits next (roots.map .enter) domain

/-- The things met, in the order in which they are entered. -/
def preorder (next : α → List α) (domain roots : List α) : List α :=
  (run next domain roots).filterMap fun
    | .enter a => some a
    | .leave _ => none

/-- The things met, in the order in which they are left: each after everything it leads to, as
long as nothing leads back to itself. -/
def postorder (next : α → List α) (domain roots : List α) : List α :=
  (run next domain roots).filterMap fun
    | .enter _ => none
    | .leave a => some a

example : preorder (fun n => [n / 2, n / 3]) (List.range 9) [8] = [8, 4, 2, 1, 0] := by
  decide +kernel
example : postorder (fun n => [n / 2, n / 3]) (List.range 9) [6, 7] = [0, 1, 3, 2, 6, 7] := by
  decide +kernel

end Traversal

end ShaderLink
