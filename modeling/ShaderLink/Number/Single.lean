import ShaderLink.Number.Layout

/-!
# Numbers of 32 bits

`Single` holds the floating-point numbers that shader values are made of: one NaN, and a sign with
a rank for all others. `Single.same` is equality of numbers, under which the two zeros agree and
NaN differs from itself; equality of the type itself tells the zeros apart.
-/

namespace ShaderLink

/-- A number of 32 bits. The rank counts from zero upwards; the last rank is infinity. -/
inductive Single where
  | nan
  | number (negative : Bool) (rank : Fin (BinaryFormat.single.top + 1))
deriving DecidableEq

namespace Single

/-- The number of a sign and a rank, infinite from the last rank on. -/
def ofRank (negative : Bool) (rank : Nat) : Single :=
  number negative ⟨min rank BinaryFormat.single.top, Nat.lt_succ_of_le (Nat.min_le_right _ _)⟩

/-- Infinity of a sign. -/
def infinity (negative : Bool) : Single := ofRank negative BinaryFormat.single.top

/-- The number nearest to a decimal. -/
def ofDecimal (negative : Bool) (d : Decimal) : Single :=
  ofRank negative (d.nearest .single)

/-- The number nearest to the 64-bit number nearest to a decimal. The two roundings may differ
from rounding once. -/
def ofWideDecimal (negative : Bool) (d : Decimal) : Single :=
  let wide := d.nearest .double
  if BinaryFormat.double.top ≤ wide then infinity negative
  else
    let (num, den) := BinaryFormat.double.ratio wide
    ofRank negative (BinaryFormat.single.nearest num den)

/-- The number that a numeral says. -/
def ofNumeral : Numeral → Single
  | .nan => nan
  | .infinite negative => infinity negative
  | .finite negative d => ofDecimal negative d

/-- Equality of numbers. -/
def same : Single → Single → Bool
  | number n r, number m s => r = s ∧ (n = m ∨ r.val = 0)
  | _, _ => false

/-- A number's text: `NaN`, `inf` behind its sign, or the shortest decimal that reads back. -/
def write (layout : Layout) : Single → List Char
  | nan => ['N', 'a', 'N']
  | number negative rank =>
    (if negative then ['-'] else []) ++
      if rank.val = BinaryFormat.single.top then ['i', 'n', 'f']
      else if rank.val = 0 then layout.write ⟨0, 0⟩
      else layout.write (BinaryFormat.single.shortest rank.val)

/-- A number is the same as itself unless it is NaN. -/
theorem same_self_iff (x : Single) : same x x = true ↔ x ≠ nan := by
  cases x <;> simp [same]

/-- The two zeros are the same number. -/
theorem same_zeros (n m : Bool) : same (ofRank n 0) (ofRank m 0) = true := by
  simp [same, ofRank]

end Single

end ShaderLink
