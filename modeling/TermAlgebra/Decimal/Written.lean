import TermAlgebra.Decimal.Basic
import TermAlgebra.Decimal.Shortest
import TermAlgebra.Numeral

/-!
# Decimal numbers in text

A decimal number is written with its shortest digits, positionally for the usual orders of
magnitude and with a power of ten otherwise, and read back from either form. Main definitions:
`Decimal.text`, `Decimal.ofLiteral` and `Decimal.ofText?`.
-/

namespace TermAlgebra.Decimal

open Rounding

/-! ### Writing -/

/-- The least order of magnitude that is written positionally: one ten-thousandth. -/
def leastPositional : Int := -4

/-- From this order of magnitude on numbers are written with a power of ten. -/
def positionalLimit : Int := 16

/-- Positional notation, with a digit on both sides of the point, of the digits of a number whose
first digit stands at the place `order`. -/
def positional (digits : List Char) (order : Int) : List Char :=
  if order < 0 then
    '0' :: '.' :: List.replicate (-order - 1).toNat '0' ++ digits
  else
    let whole := order.toNat + 1
    let fraction := digits.drop whole
    digits.take whole ++ List.replicate (whole - digits.length) '0' ++
      '.' :: (if fraction.isEmpty then ['0'] else fraction)

/-- The digits of an exponent, at least two. -/
def exponentDigits (n : Nat) : List Char :=
  if n < 10 then '0' :: Numeral.digits n else Numeral.digits n

/-- Notation with a power of ten: one digit before the point, which is left out after a single
digit, and a signed exponent. -/
def withExponent (digits : List Char) (order : Int) : List Char :=
  let significand := match digits with
    | first :: second :: rest => first :: '.' :: second :: rest
    | short => short
  significand ++ 'e' :: (if order < 0 then '-' else '+') :: exponentDigits order.natAbs

/-- The text of the finite magnitude of a rank. -/
def magnitudeText (rank : Nat) : List Char :=
  if rank = 0 then ['0', '.', '0']
  else
    let shortest := Shortest.ofRank rank
    let digits := Numeral.digits shortest.significand
    let order := shortest.exponent + (digits.length - 1 : Nat)
    if leastPositional ≤ order && order < positionalLimit then positional digits order
    else withExponent digits order

/-- A minus sign for a negative number. -/
def signText (negative : Bool) : List Char :=
  if negative then ['-'] else []

/-- The text of a decimal number. -/
def text : Decimal → String
  | finite s r _ => String.ofList (signText s ++ magnitudeText r)
  | infinite s => String.ofList (signText s ++ "inf".toList)
  | undefined _ => "nan"

/-! ### Reading -/

/-- The number written with the given digits before and after the point. -/
def ofLiteral (whole fraction : List Char) : Decimal :=
  ofQuotient false (Numeral.value (whole ++ fraction)) (Nat.pow 10 fraction.length)

/-- Beyond this power of ten every magnitude is infinite, and so many places below the point every
magnitude is zero. -/
def exponentRange : Int := 400

/-- The number with the given digits times a power of ten. -/
def ofDigits (negative : Bool) (digits : List Char) (exponent : Int) : Decimal :=
  let significand := Numeral.value digits
  if significand = 0 || exponent + digits.length < -exponentRange then ofRank negative 0
  else if exponentRange < exponent then infinite negative
  else if 0 ≤ exponent then ofQuotient negative (significand * Nat.pow 10 exponent.toNat) 1
  else ofQuotient negative significand (Nat.pow 10 (-exponent).toNat)

/-- A sign, if there is one, and the rest. -/
def splitSign : List Char → Bool × List Char
  | '-' :: cs => (true, cs)
  | '+' :: cs => (false, cs)
  | cs => (false, cs)

/-- The exponent that follows the digits of a number, zero if nothing follows. -/
def exponentOf? : List Char → Option Int
  | [] => some 0
  | c :: cs =>
    if c.toLower = 'e' then
      let (negative, digits) := splitSign cs
      if digits.isEmpty || !digits.all Numeral.isDigit then none
      else
        let size : Int := Numeral.value digits
        some (if negative then -size else size)
    else none

/-- An unsigned number: digits, with a point and an exponent where wanted. -/
def magnitudeOf? (negative : Bool) (cs : List Char) : Option Decimal :=
  let whole := cs.takeWhile Numeral.isDigit
  let rest := cs.dropWhile Numeral.isDigit
  let (fraction, rest) := match rest with
    | '.' :: after => (after.takeWhile Numeral.isDigit, after.dropWhile Numeral.isDigit)
    | _ => ([], rest)
  if whole.isEmpty && fraction.isEmpty then none
  else (exponentOf? rest).map fun exponent =>
    ofDigits negative (whole ++ fraction) (exponent - fraction.length)

/-- The decimal number that a text stands for. An undefined value is given the number. -/
def ofText? (number : Nat) (s : String) : Option Decimal :=
  let (negative, cs) := splitSign s.toList
  let word := String.ofList (cs.map Char.toLower)
  if word = "nan" then some (undefined (.given number))
  else if word = "inf" || word = "infinity" then some (infinite negative)
  else magnitudeOf? negative cs

end TermAlgebra.Decimal
