/-!
# Binary floating-point formats

A format is described by the number of binary digits of a significand, by its least positive
number, and by the rank at which the finite numbers end. The **rank** of a number that is not
negative is its position in the ascending list of the format's numbers: zero has rank 0, the least
positive number rank 1, and infinity the rank `top`. Ranks make rounding a division
(`BinaryFormat.nearest`) and leave nothing to be said about carries between binades: the number
after the last of one binade is the first of the next.

All arithmetic is on natural numbers and exact.
-/

namespace ShaderLink

/-- A binary format of floating-point numbers. -/
structure BinaryFormat where
  /-- The binary digits of a significand. -/
  precision : Nat
  /-- The least positive number is `2 ^ (-unit)`. -/
  unit : Nat
  /-- The rank of infinity. -/
  top : Nat

namespace BinaryFormat

/-- Numbers of 32 bits. -/
def single : BinaryFormat := ⟨24, 149, 0x7f800000⟩

/-- Numbers of 64 bits. -/
def double : BinaryFormat := ⟨53, 1074, 0x7ff0000000000000⟩

variable (f : BinaryFormat)

/-- The numbers of one binade, which is also the least significand of a normal number. -/
def binade : Nat := Nat.pow 2 (f.precision - 1)

/-- The significand of the number of a rank. -/
def significand (rank : Nat) : Nat :=
  if rank < f.binade then rank else rank % f.binade + f.binade

/-- The number of a rank is its significand times `2 ^ (shift - unit)`. -/
def shift (rank : Nat) : Nat := rank / f.binade - 1

/-- The quotient rounded to the nearest natural number, a half to the even neighbour. -/
def roundQuotient (n d : Nat) : Nat :=
  if 2 * (n % d) < d ∨ (2 * (n % d) = d ∧ n / d % 2 = 0) then n / d else n / d + 1

/-- Rounding to nearest. The rank of the number nearest to `num / den`, ties to the even
significand; what rounds past the finite numbers has the rank of infinity. -/
def nearest (num den : Nat) : Nat :=
  let scaled := num * Nat.pow 2 f.unit
  -- the digits that do not fit into a significand; small numbers have none
  let shift := (scaled / den).log2 + 1 - f.precision
  min f.top (shift * f.binade + roundQuotient scaled (den * Nat.pow 2 shift))

/-- The number of a finite rank as numerator and denominator. -/
def ratio (rank : Nat) : Nat × Nat :=
  (f.significand rank * Nat.pow 2 (f.shift rank), Nat.pow 2 f.unit)

/-- The rounded quotient is at most half a divisor away from the exact one. -/
theorem roundQuotient_mul_le {n d : Nat} (h : 0 < d) :
    2 * (roundQuotient n d * d) ≤ 2 * n + d ∧ 2 * n ≤ 2 * (roundQuotient n d * d) + d := by
  have e := Nat.div_add_mod n d
  have c : d * (n / d) = n / d * d := Nat.mul_comm _ _
  have l := Nat.mod_lt n h
  unfold roundQuotient
  split
  · omega
  · rw [Nat.add_mul]
    omega

example : single.nearest 1 10 = 0x3dcccccd := by decide +kernel
example : single.nearest (2 ^ 128) 1 = single.top := by decide +kernel

end BinaryFormat

end ShaderLink
