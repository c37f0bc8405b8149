import Std.Data.ExtTreeMap

/-!
# Object identifiers

Objects are named by numbers that are handed out in ascending order and never used twice. They are
ordered by number, which makes them keys of ordered maps.
-/

namespace ShaderLink

/-- The number of a shader object. -/
structure ObjectId where
  index : Nat
deriving DecidableEq, Repr

namespace ObjectId

instance : Ord ObjectId := ⟨fun a b => compare a.index b.index⟩

instance : Std.TransOrd ObjectId where
  eq_swap {a b} := Std.OrientedOrd.eq_swap (a := a.index) (b := b.index)
  isLE_trans {a b c} := Std.TransOrd.isLE_trans (a := a.index) (b := b.index) (c := c.index)

instance : Std.LawfulEqOrd ObjectId where
  eq_of_compare {a b} h := by
    cases a
    cases b
    exact congrArg mk (Std.LawfulEqOrd.eq_of_compare h)

/-- How an identifier is shown: its number behind a number sign. -/
def label (id : ObjectId) : String := "#" ++ toString id.index

/-- The identifier after this one. -/
def next (id : ObjectId) : ObjectId := ⟨id.index + 1⟩

end ObjectId

/-- The names that objects have been given. -/
abbrev Names := Std.ExtTreeMap ObjectId String

end ShaderLink
