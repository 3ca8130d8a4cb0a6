import TermAlgebra.Decimal.Rounding

/-!
# Shortest decimal digits

A binary64 magnitude is written with as few significant digits as read back as the same magnitude,
and with those nearest to it where there is a choice. Main definition: `Shortest.ofRank`.
-/

namespace TermAlgebra.Shortest

open Rounding

/-- A decimal magnitude: `significand * 10 ^ exponent`. -/
structure Scientific where
  significand : Nat
  exponent : Int
deriving DecidableEq, Repr

/-- The rank of the binary64 magnitude nearest to a decimal magnitude. -/
def Scientific.rank (d : Scientific) : Nat :=
  if 0 ≤ d.exponent then Rounding.rank (d.significand * Nat.pow 10 d.exponent.toNat) 1
  else Rounding.rank d.significand (Nat.pow 10 (-d.exponent).toNat)

/-- The multiples of `10 ^ exponent` on both sides of `num / den`, the nearer one first and of two
equally near ones the even one. -/
def neighbours (num den : Nat) (exponent : Int) : List Scientific :=
  let (num, den) :=
    if 0 ≤ exponent then (num, den * Nat.pow 10 exponent.toNat)
    else (num * Nat.pow 10 (-exponent).toNat, den)
  let below := num / den
  let nearest := divideToEven num den
  let other := if nearest = below then below + 1 else below
  [⟨nearest, exponent⟩, ⟨other, exponent⟩]

/-- The first decimal magnitude that reads back as the given rank, on grids of descending
exponents from `exponent` on. The search covers `grids` of them. -/
def search (rank num den : Nat) : Nat → Int → Option Scientific
  | 0, _ => none
  | grids + 1, exponent =>
    match (neighbours num den exponent).find? (fun d => d.rank = rank) with
    | some d => some d
    | none => search rank num den grids (exponent - 1)

/-- An exponent whose power of ten is greater than the magnitude `significand * 2 ^ exponent`. -/
def decimalBound (significand : Nat) (exponent : Int) : Int :=
  ((significand.log2 : Int) + 1 + exponent) * 30103 / 100000 + 1

/-- The exact decimal form of a finite magnitude. -/
def exact (significand : Nat) (exponent : Int) : Scientific :=
  if 0 ≤ exponent then ⟨significand * Nat.pow 2 exponent.toNat, 0⟩
  else ⟨significand * Nat.pow 5 (-exponent).toNat, exponent⟩

/-- The digits of the finite magnitude of a rank: the coarsest grid that holds a decimal magnitude
which reads back is at most nineteen places below the magnitude's own order. -/
def ofRank (rank : Nat) : Scientific :=
  let (significand, exponent) := parts rank
  let (num, den) := scaled significand exponent
  (search rank num den 20 (decimalBound significand exponent)).getD (exact significand exponent)

/-- What the search finds reads back. -/
theorem rank_of_search {rank num den grids : Nat} {exponent : Int} {d : Scientific}
    (h : search rank num den grids exponent = some d) : d.rank = rank := by
  induction grids generalizing exponent with
  | zero => simp [search] at h
  | succ grids ih =>
    rw [search] at h
    split at h
    · next found hfound =>
      obtain rfl := Option.some.inj h
      simpa using List.find?_some hfound
    · exact ih h

end TermAlgebra.Shortest
