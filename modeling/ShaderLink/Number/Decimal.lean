import ShaderLink.Number.Binary

/-!
# Decimal numerals

`Decimal` is a natural number of decimal digits with a power of ten, `Numeral` what a numeral of
shader code may say, and `Numeral.read?` accepts exactly the forms

* a sign, which may be missing,
* then `inf`, `infinity` or `nan` in any mixture of cases, or digits with at most one point among
  them and at least one digit, followed by an exponent or by nothing.

`Decimal.nearest` rounds a decimal to a binary format. Exponents so large that the power of ten
would not fit in memory are decided by the number's order alone.
-/

namespace ShaderLink

/-- The number `digits * 10 ^ exponent`. -/
structure Decimal where
  digits : Nat
  exponent : Int
deriving DecidableEq, Repr

/-- A numeral, read but not rounded. -/
inductive Numeral where
  | nan
  | infinite (negative : Bool)
  | finite (negative : Bool) (magnitude : Decimal)
deriving DecidableEq, Repr

namespace Decimal

/-- The number of decimal digits of a natural number; zero has one. -/
def digitCount (n : Nat) : Nat := (Nat.toDigits 10 n).length

/-- A decimal as numerator and denominator. -/
def ratio (d : Decimal) : Nat × Nat :=
  if 0 ≤ d.exponent then (d.digits * Nat.pow 10 d.exponent.toNat, 1)
  else (d.digits, Nat.pow 10 (-d.exponent).toNat)

/-- Decimals from `10 ^ orderLimit` on are infinite in every format, those below
`10 ^ (-orderLimit)` are zero in every format. -/
def orderLimit : Int := 400

/-- The rank of the number nearest to a decimal. -/
def nearest (f : BinaryFormat) (d : Decimal) : Nat :=
  -- decided before any power is taken: the exponent may be astronomically large
  let order := d.exponent + digitCount d.digits
  if d.digits = 0 ∨ order < -orderLimit then 0
  else if orderLimit < order then f.top
  else f.nearest d.ratio.1 d.ratio.2

/-- The decimal without zeros at the end of its digits. -/
def strip (d : Decimal) : Decimal :=
  if 0 < d.digits ∧ d.digits % 10 = 0 then strip ⟨d.digits / 10, d.exponent + 1⟩ else d
termination_by d.digits
decreasing_by omega

end Decimal

/-- The natural number written by decimal digits, most significant first. -/
def digitsValue (s : List Char) : Nat :=
  s.foldl (fun value c => value * 10 + (c.toNat - '0'.toNat)) 0

/-- A text of digits only, and at least one. -/
def isDigits (s : List Char) : Bool :=
  !s.isEmpty && s.all Char.isDigit

/-- The sign in front of a numeral, and the rest. -/
def takeSign : List Char → Bool × List Char
  | '-' :: s => (true, s)
  | '+' :: s => (false, s)
  | s => (false, s)

/-- The integer written by digits behind an optional sign. -/
def readInteger? (s : List Char) : Option Int :=
  let (negative, s) := takeSign s
  if isDigits s then some (if negative then -(digitsValue s : Int) else digitsValue s) else none

namespace Numeral

/-- The exponent after the digits: nothing, or the letter `e` and an integer. -/
def readExponent? : List Char → Option Int
  | [] => some 0
  | c :: s => if c = 'e' ∨ c = 'E' then readInteger? s else none

/-- Digits with at most one point, and an exponent. -/
def readMagnitude? (s : List Char) : Option Decimal :=
  let whole := s.takeWhile Char.isDigit
  let (fraction, rest) :=
    match s.dropWhile Char.isDigit with
    | '.' :: r => (r.takeWhile Char.isDigit, r.dropWhile Char.isDigit)
    | r => ([], r)
  if whole.isEmpty && fraction.isEmpty then none
  else (readExponent? rest).map fun e => ⟨digitsValue (whole ++ fraction), e - fraction.length⟩

/-- Reads a numeral. -/
def read? (s : List Char) : Option Numeral :=
  let (negative, s) := takeSign s
  match s.map Char.toLower with
  | ['n', 'a', 'n'] => some nan
  | ['i', 'n', 'f'] => some (infinite negative)
  | ['i', 'n', 'f', 'i', 'n', 'i', 't', 'y'] => some (infinite negative)
  | _ => (readMagnitude? s).map (finite negative)

example : read? ['-', '1', '.', '5', 'E', '2'] = some (finite true ⟨15, 1⟩) := by decide
example : read? ['.'] = none := by decide

end Numeral

end ShaderLink
