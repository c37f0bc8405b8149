import ShaderLink.Glsl.Word
import ShaderLink.Number.Single

/-!
# Values of program variables

What a program variable can be given: truth values, integers, floating-point numbers, vectors and
matrices of these, and handles of vertex buffers. A value determines the qualifier and the type of
a variable that has neither (`Value.qualifier`, `Value.type`), and every value but a buffer has a
literal (`Value.literal`).

`Value.same` decides whether two values are equal the way numbers are: the zeros agree, and NaN
agrees with nothing.
-/

namespace ShaderLink

/-- A handle of a vertex buffer. The linker only needs the type of what one vertex finds in it. -/
structure Buffer where
  id : UInt64
  type : String
deriving DecidableEq

/-- The vector and matrix types that values come in. -/
inductive Composite where
  | vec2
  | vec3
  | vec4
  | mat2
  | mat3
  | mat4
deriving DecidableEq, Repr

namespace Composite

/-- The name of the type. -/
def type : Composite → String
  | vec2 => "vec2"
  | vec3 => "vec3"
  | vec4 => "vec4"
  | mat2 => "mat2"
  | mat3 => "mat3"
  | mat4 => "mat4"

/-- The number of components. -/
def size : Composite → Nat
  | vec2 => 2
  | vec3 => 3
  | vec4 => 4
  | mat2 => 4
  | mat3 => 9
  | mat4 => 16

end Composite

/-- A value of a program variable. -/
inductive Value where
  | bool (b : Bool)
  | int (n : Int32)
  | float (x : Single)
  | composite (kind : Composite) (components : Vector Single kind.size)
  | buffer (b : Buffer)
deriving DecidableEq

namespace Value

/-- Numbers from one ten-thousandth up to ten quadrillions are written positionally. -/
def layout : Layout := ⟨-4, 16⟩

/-- A number as a literal, which always has a point or an exponent. -/
def number (x : Single) : String := String.ofList (x.write layout)

/-- The qualifier of a variable that takes its qualifier from its value. -/
def qualifier : Value → Qualifier
  | buffer _ => .vertexAttribute
  | _ => .uniform

/-- The type of a value; for a buffer, the type it was registered with. -/
def type : Value → String
  | bool _ => "bool"
  | int _ => "int"
  | float _ => "float"
  | composite kind _ => kind.type
  | buffer b => b.type

/-- The literal of a value. Buffers have none. -/
def literal : Value → Option String
  | bool b => some (if b then "true" else "false")
  | int n => some (toString n.toInt)
  | float x => some (number x)
  | composite kind components =>
    some (kind.type ++ "(" ++ ", ".intercalate (components.toList.map number) ++ ")")
  | buffer _ => none

/-- Equality of values, with numbers compared as numbers. -/
def same : Value → Value → Bool
  | bool a, bool b => a = b
  | int a, int b => a = b
  | float x, float y => x.same y
  | composite k xs, composite l ys => k = l && (xs.toList.zipWith Single.same ys.toList).all id
  | buffer a, buffer b => a = b
  | _, _ => false

/-- A buffer is the only value without a literal. -/
theorem literal_eq_none_iff (v : Value) : v.literal = none ↔ ∃ b, v = buffer b := by
  cases v <;> simp [literal]

end Value

end ShaderLink
