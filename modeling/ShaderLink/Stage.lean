/-!
# Stages

A program has a vertex and a fragment stage, each compiled from a source of its own. Wherever stages
are gone through, the vertex stage comes first.
-/

namespace ShaderLink

/-- A compilation unit of a program. -/
inductive Stage where
  | vertex
  | fragment
deriving DecidableEq, Repr

/-- Something for each stage that there is. -/
structure Stages (α : Type) where
  vertex : Option α
  fragment : Option α
deriving DecidableEq, Repr

namespace Stages

variable {α β : Type}

/-- No stages. -/
def none : Stages α := ⟨.none, .none⟩

/-- What a stage has. -/
def get? (s : Stages α) : Stage → Option α
  | .vertex => s.vertex
  | .fragment => s.fragment

/-- Gives a stage something. -/
def set (s : Stages α) (a : α) : Stage → Stages α
  | .vertex => { s with vertex := some a }
  | .fragment => { s with fragment := some a }

/-- What there is, the vertex stage first. -/
def toList (s : Stages α) : List α := s.vertex.toList ++ s.fragment.toList

/-- The same stages, each with another thing. -/
def map (f : α → β) (s : Stages α) : Stages β := ⟨s.vertex.map f, s.fragment.map f⟩

/-- Goes through the stages, the vertex stage first. -/
def mapM {m : Type → Type} [Monad m] (f : α → m β) (s : Stages α) : m (Stages β) := do
  let vertex ← s.vertex.mapM f
  let fragment ← s.fragment.mapM f
  return ⟨vertex, fragment⟩

theorem get?_set_self (s : Stages α) (a : α) (stage : Stage) :
    (s.set a stage).get? stage = some a := by
  cases stage <;> rfl

end Stages

end ShaderLink
