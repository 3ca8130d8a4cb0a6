/-!
# Rounding to binary64

A quotient of natural numbers is rounded to the nearest number of the binary64 format, a tie to
the even neighbour. The magnitudes of the format are numbered in ascending order from zero: the
number of a magnitude is its bit pattern, and `infinityRank` comes after all finite ones.

Main definitions: `Rounding.divideToEven`, `Rounding.rank`, and the way back, `Rounding.parts` and
`Rounding.quotient`.
-/

namespace TermAlgebra.Rounding

/-- The quotient of two natural numbers rounded to the nearest one, a tie to the even one. -/
def divideToEven (num den : Nat) : Nat :=
  let quotient := num / den
  let twice := 2 * (num % den)
  if twice < den || (twice == den && quotient % 2 == 0) then quotient else quotient + 1

/-- The number of significant binary digits of a normal magnitude. -/
def precision : Nat := 53

/-- The least exponent: every magnitude is a multiple of `2 ^ leastExponent`. -/
def leastExponent : Int := -1074

/-- The rank of infinity, which comes after all finite magnitudes. -/
def infinityRank : Nat := 0x7ff0000000000000

/-- The product of a natural number and a power of two, as a quotient. -/
def scaled (m : Nat) (exponent : Int) : Nat × Nat :=
  if 0 ≤ exponent then (m * Nat.pow 2 exponent.toNat, 1) else (m, Nat.pow 2 (-exponent).toNat)

/-- The greatest `k` with `2 ^ k ≤ num / den`, for positive numbers. -/
def binaryOrder (num den : Nat) : Int :=
  let guess : Int := (num.log2 : Int) - den.log2
  let power := scaled 1 guess
  if power.1 * den ≤ num * power.2 then guess else guess - 1

/-- The rank of the magnitude nearest to `num / den`, or `infinityRank` if the quotient rounds
beyond the finite magnitudes. -/
def rank (num den : Nat) : Nat :=
  if num = 0 then 0
  else
    let exponent := max (binaryOrder num den - (precision - 1 : Nat)) leastExponent
    let unit := scaled 1 exponent
    let significand := divideToEven (num * unit.2) (den * unit.1)
    min (significand + (exponent - leastExponent).toNat * Nat.pow 2 (precision - 1)) infinityRank

/-- Significand and exponent of the finite magnitude of a rank. -/
def parts (rank : Nat) : Nat × Int :=
  let unit := Nat.pow 2 (precision - 1)
  let biased := rank / unit
  if biased = 0 then (rank, leastExponent)
  else (unit + rank % unit, leastExponent + (biased - 1 : Nat))

/-- The finite magnitude of a rank as an exact quotient. -/
def quotient (rank : Nat) : Nat × Nat :=
  let (significand, exponent) := parts rank
  scaled significand exponent

end TermAlgebra.Rounding
