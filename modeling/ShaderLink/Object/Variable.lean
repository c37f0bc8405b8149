import ShaderLink.Glsl.Declaration
import ShaderLink.LinkError

/-!
# Program variables

A variable is a value on the device that code may refer to. A **declared** variable keeps the name,
qualifier and type of its declaration. Any other is named by the linker and takes qualifier and
type from the value it was given last; a varying may instead be linked to another object and take
its type.
-/

namespace ShaderLink

/-- A program variable. -/
structure Variable where
  name : String
  /-- Whether name, qualifier and type come from a declaration. -/
  declared : Bool
  qualifier : Option Qualifier
  /-- The type set on the variable itself. -/
  type : Option String
  value : Option Value
  /-- The object whose type the variable takes if it has none. -/
  link : Option ObjectId
  /-- The number of values assigned so far. -/
  state : Nat
deriving DecidableEq

namespace Variable

/-- A variable that will get its qualifier and type from its first value. -/
def unassigned (name : String) : Variable :=
  { name, declared := false, qualifier := none, type := none, value := none, link := none
    state := 0 }

/-- The variable of a declaration. -/
def ofDeclaration (d : Declaration) : Variable :=
  { unassigned d.name with
    declared := true, qualifier := some d.qualifier, type := some d.type, value := d.value }

/-- A variable with its first value. -/
def ofValue (name : String) (value : Value) : Variable :=
  { unassigned name with
    qualifier := some value.qualifier, type := some value.type, value := some value }

/-- A varying, with a type or to be linked later. -/
def varying (name : String) (type : Option String) : Variable :=
  { unassigned name with qualifier := some .varying, type }

/-- What is known about qualifier and type, in words. -/
def summary (v : Variable) : String :=
  match v.qualifier, v.type with
  | some q, some t => q.keyword ++ " " ++ t
  | none, some t => t
  | some q, none => q.keyword
  | none, none => "unassigned"

/-- Refuses a value of another type. -/
def checkType (v : Variable) (value : Value) : Except LinkError Unit :=
  if v.type = some value.type then pure ()
  else throw (.typeMismatch v.name v.summary value.type)

/-- Stores an accepted value. -/
def store (v : Variable) (value : Value) : Variable :=
  { v with value := some value, state := v.state + 1 }

/-- Assigning a value. The answer holds the variable and whether its definition changed. The
data of uniforms and attributes is no part of their definitions; the value of a constant is. -/
def setValue (v : Variable) (value : Value) : Except LinkError (Variable × Bool) :=
  match v.qualifier with
  | some .varying => throw (.varyingValue v.name)
  | some .const => do
    v.checkType value
    return (v.store value, !(v.value.any fun old => old.same value))
  | qualifier =>
    if v.declared then do
      unless qualifier = some value.qualifier do
        throw (.typeMismatch v.name v.summary (value.qualifier.keyword ++ " " ++ value.type))
      v.checkType value
      return (v.store value, false)
    else
      let changed := qualifier ≠ some value.qualifier ∨ v.type ≠ some value.type
      return ({ v.store value with qualifier := some value.qualifier, type := some value.type },
        changed)

/-- A value that is accepted is the one the variable then holds. -/
theorem value_of_setValue {v w : Variable} {value : Value} {changed : Bool}
    (h : v.setValue value = .ok (w, changed)) : w.value = some value := by
  unfold setValue at h
  split at h
  · cases h
  · cases hc : v.checkType value <;> simp [hc, bind, Except.bind, pure, Except.pure] at h
    simp [← h.1, store]
  · split at h
    · split at h
      · cases hc : v.checkType value <;> simp [hc, bind, Except.bind, pure, Except.pure] at h
        simp [← h.1, store]
      · cases h
    · simp only [pure, Except.pure, Except.ok.injEq, Prod.mk.injEq] at h
      simp [← h.1, store]

end Variable

end ShaderLink
