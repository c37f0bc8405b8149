import ShaderLink.Number.Shortest

/-!
# Writing decimals

`Layout` says which decimals are written positionally and which with an exponent, and
`Layout.write` writes a decimal accordingly. A positional number always has a point with a digit
on either side; an exponent has a sign only when it is negative.
-/

namespace ShaderLink

/-- The orders (exponents of the first digit) that are written positionally, the last one
excluded. -/
structure Layout where
  firstOrder : Int
  endOrder : Int

namespace Layout

/-- Zeros in a row. -/
def zeros (n : Nat) : List Char := List.replicate n '0'

/-- The digits with a point after the first `order + 1` of them, filled up with zeros. -/
def positional (digits : List Char) (order : Int) : List Char :=
  if order < 0 then ['0', '.'] ++ zeros (-order - 1).toNat ++ digits
  else
    let whole := order.toNat + 1
    let fraction := digits.drop whole
    digits.take whole ++ zeros (whole - digits.length) ++ ['.'] ++
      (if fraction.isEmpty then ['0'] else fraction)

/-- The digits with a point after the first, if there are more, and the order as exponent. -/
def scientific (digits : List Char) (order : Int) : List Char :=
  digits.take 1 ++ (if digits.length ≤ 1 then [] else '.' :: digits.drop 1) ++
    'e' :: (toString order).toList

/-- A decimal whose digits do not end in zero. -/
def write (l : Layout) (d : Decimal) : List Char :=
  let digits := Nat.toDigits 10 d.digits
  let order := d.exponent + digits.length - 1
  if d.digits = 0 then ['0', '.', '0']
  else if l.firstOrder ≤ order ∧ order < l.endOrder then positional digits order
  else scientific digits order

example : write ⟨-4, 16⟩ ⟨15, -5⟩ = ['0', '.', '0', '0', '0', '1', '5'] := by decide
example : write ⟨-4, 16⟩ ⟨12, 0⟩ = ['1', '2', '.', '0'] := by decide

end Layout

end ShaderLink
