import ShaderLink.Number.Decimal

/-!
# The shortest decimal that reads back

`BinaryFormat.shortest f rank` is the decimal of fewest digits among those that round to the
number of that rank, and of these the nearest to it; two that are equally near are decided for the
larger one.

The decimals that round to a number are those of an interval around it, half way to its two
neighbours. The ends belong to the interval when the significand is even, and the lower half is
only half as wide below a power of two. On each grid of decimals, coarse to fine, only the two
grid points around the number have to be tried: if any point of the grid lies in the interval, one
of these two does.
-/

namespace ShaderLink.BinaryFormat

variable (f : BinaryFormat)

/-- The interval that rounds to one number. All bounds are multiples of `2 ^ (-unit - 2)`. -/
structure Cell where
  lower : Nat
  middle : Nat
  upper : Nat
  /-- Whether the two ends belong to the interval. -/
  closed : Bool

/-- The interval of the number of a rank. -/
def cell (rank : Nat) : Cell :=
  let m := f.significand rank
  let gap := Nat.pow 2 (f.shift rank)
  let below := if m = f.binade ∧ 0 < f.shift rank then gap else 2 * gap
  { lower := 4 * m * gap - below, middle := 4 * m * gap, upper := 4 * m * gap + 2 * gap
    closed := m % 2 = 0 }

/-- The steps of a cell's bounds in one. -/
def cellScale : Nat := Nat.pow 2 (f.unit + 2)

/-- Whether a decimal lies in a cell. -/
def Cell.holds (c : Cell) (scale : Nat) (d : Decimal) : Bool :=
  let (num, den) := d.ratio
  let x := num * scale
  if c.closed then c.lower * den ≤ x && x ≤ c.upper * den
  else c.lower * den < x && x < c.upper * den

/-- The decimal order of a cell's middle: the exponent of its first digit. -/
def order (c : Cell) : Int :=
  Decimal.digitCount (c.middle * Nat.pow 10 f.unit / f.cellScale) - 1 - f.unit

/-- The point of a cell on the grid of decimals with `n` digits, if the grid has one there. -/
def gridPoint? (c : Cell) (n : Nat) : Option Decimal :=
  -- the place of the last of `n` digits
  let e := f.order c + 1 - n
  let (num, den) := (Decimal.mk 1 e).ratio
  let step := num * f.cellScale
  let digits := c.middle * den / step
  let low : Decimal := ⟨digits, e⟩
  let high : Decimal := ⟨digits + 1, e⟩
  match c.holds f.cellScale low, c.holds f.cellScale high with
  | true, true =>
    -- both read back: the nearer one
    if c.middle * den - digits * step < (digits + 1) * step - c.middle * den then some low
    else some high
  | true, false => some low
  | false, true => some high
  | false, false => none

/-- As many decimal digits as tell any two numbers of the common formats apart. -/
def enoughDigits : Nat := 17

/-- The shortest decimal that reads back as the number of a positive finite rank. -/
def shortest (rank : Nat) : Decimal :=
  let c := f.cell rank
  let hit := (List.range enoughDigits).findSome? fun n => f.gridPoint? c (n + 1)
  (hit.getD ⟨c.middle, 0⟩).strip

example : single.shortest 1 = ⟨1, -45⟩ := by decide +kernel
example : single.shortest (single.nearest 1 10) = ⟨1, -1⟩ := by decide +kernel
example : single.shortest (single.nearest (2 ^ 24) 1) = ⟨16777216, 0⟩ := by decide +kernel

end ShaderLink.BinaryFormat
