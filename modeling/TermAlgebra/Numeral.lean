/-!
# Whole numbers in text

Whole numbers are read from and written in decimal digits, up to a limit on their number.
Main definitions: `Numeral.digitLimit`, `Numeral.value`, `Numeral.fits` and `Numeral.text`.
-/

namespace TermAlgebra.Numeral

/-- A numeral has at most this many digits, leading zeros included. -/
def digitLimit : Nat := 4300

/-- A digit of a numeral is one of the ten ASCII digits. -/
def isDigit (c : Char) : Bool := c.isDigit

/-- The number that a run of digits stands for. -/
def value (digits : List Char) : Nat :=
  Nat.ofDigitChars 10 digits 0

/-- The digits of a number, without leading zeros. -/
def digits (n : Nat) : List Char :=
  Nat.toDigits 10 n

/-- Reading the digits of a number gives the number. -/
theorem value_digits (n : Nat) : value (digits n) = n :=
  Nat.ofDigitChars_toDigits (by decide) (by decide)

/-- A whole number fits if it can be written within the limit. -/
def fits (n : Int) : Bool :=
  n.natAbs < Nat.pow 10 digitLimit

/-- A number fits exactly if it has no more digits than the limit. -/
theorem fits_iff_length_digits_le (n : Int) :
    fits n = true ↔ (digits n.natAbs).length ≤ digitLimit := by
  rw [fits, decide_eq_true_eq, digits, Nat.pow_eq]
  exact (Nat.length_toDigits_le_iff (by decide) (by decide)).symm

/-- The text of a whole number: its digits, after a minus sign if it is negative. -/
def text (n : Int) : String :=
  String.ofList (if n < 0 then '-' :: digits n.natAbs else digits n.natAbs)

end TermAlgebra.Numeral
