import ShaderLink.Glsl.Word
import ShaderLink.LinkError

/-!
# Namespaces

A namespace knows the names that are taken during one linking: names **claimed** by objects, names
**reserved** by code, and the reserved words of the language unless these are given free. A name is
free when it is none of them.

`Namespace.suggest` finds a free name for an object that may be called anything. It starts from the
name the object was made with; if that is taken it counts upwards behind the **stem** of the name,
which is the name without the number it may already end in. The search is bounded by the number of
names that can be taken, since all the names it tries are different.
-/

namespace ShaderLink

/-- How objects that may be called anything are named. -/
inductive NamingStyle where
  /-- By their own name, with a number if it is taken. -/
  | pretty
  /-- By their own name with their identifier in hexadecimal digits. -/
  | fast
deriving DecidableEq, Repr

/-- The names that are taken. -/
structure Namespace where
  claimed : Std.ExtTreeMap String ObjectId
  reserved : List String
  /-- Whether the reserved words of the language are taken. -/
  keywords : Bool

namespace Namespace

/-- Whether a word is withheld as a word of the language. -/
def isKeyword (ns : Namespace) (name : String) : Bool :=
  ns.keywords && Glsl.isReserved name

/-- Whether nothing takes a name. -/
def isFree (ns : Namespace) (name : String) : Bool :=
  !ns.claimed.contains name && !ns.reserved.contains name && !ns.isKeyword name

/-- Claims a name for an object. An object may claim its own names again. -/
def claim (ns : Namespace) (name : String) (id : ObjectId) : Except LinkError Namespace := do
  if let some other := ns.claimed[name]? then
    unless other = id do throw (.nameCollision name other id)
  return { ns with claimed := ns.claimed.insert name id }

/-- A name without an underscore and digits at its end, if something is left without them. -/
def stem (name : List Char) : List Char :=
  let digits := name.reverse.takeWhile Char.isDigit
  match digits, name.reverse.dropWhile Char.isDigit with
  | _ :: _, '_' :: rest => if rest.isEmpty then name else rest.reverse
  | _, _ => name

/-- The `k`th name tried behind a stem. -/
def numbered (stem : String) (k : Nat) : String :=
  stem ++ "_" ++ toString k

/-- The name of an object with its identifier. -/
def identified (base : String) (id : ObjectId) : String :=
  base ++ "_" ++ String.ofList (Nat.toDigits 16 id.index)

/-- The number of names that can be taken. -/
def size (ns : Namespace) : Nat :=
  ns.claimed.size + ns.reserved.length + Glsl.reservedWords.length

/-- The first free name behind the stem of a name. -/
def firstNumbered (ns : Namespace) (base : String) : String :=
  let stem := String.ofList (stem base.toList)
  let tries := (List.range (ns.size + 1)).map fun k => numbered stem (k + 1)
  (tries.find? ns.isFree).getD base

/-- A free name for an object, from the name it was made with. -/
def suggest (ns : Namespace) (style : NamingStyle) (base : String) (id : ObjectId) : String :=
  if style = .fast ∧ ns.isFree (identified base id) then identified base id
  else if ns.isFree base then base
  else ns.firstNumbered base

example : stem "light_2".toList = "light".toList ∧ stem "_2".toList = "_2".toList := by
  decide +kernel

end Namespace

end ShaderLink
