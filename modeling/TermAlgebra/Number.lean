import TermAlgebra.Fault

/-!
# Numbers

The values of expressions: whole numbers, which stay exact, and decimal numbers. An operation on
two whole numbers is exact; where a decimal number takes part, the other number is rounded to one
first. Main definitions: `Number`, `Number.add`, `Number.mul` and `Number.divide`.
-/

namespace TermAlgebra

/-- A whole or a decimal number. -/
inductive Number
  | integer (value : Int)
  | decimal (value : Decimal)
deriving DecidableEq

namespace Number

/-- The number as a decimal number, which a large whole number may be too large for. -/
def toDecimal : Number → Except Fault Decimal
  | integer n => (Decimal.ofInt? n).elim (.error .integerBeyondDecimal) .ok
  | decimal d => .ok d

/-- The sum of two numbers. -/
def add : Number → Number → Except Fault Number
  | integer n, integer m => .ok (integer (n + m))
  | a, b => do return decimal ((← a.toDecimal).add (← b.toDecimal))

/-- The product of two numbers. -/
def mul : Number → Number → Except Fault Number
  | integer n, integer m => .ok (integer (n * m))
  | a, b => do return decimal ((← a.toDecimal).mul (← b.toDecimal))

/-- The opposite number. -/
def neg : Number → Number
  | integer n => integer (-n)
  | decimal d => decimal d.neg

/-- The absolute value. -/
def abs : Number → Number
  | integer n => integer n.natAbs
  | decimal d => decimal d.abs

/-- The decimal number nearest to the quotient of two whole numbers. A quotient that rounds to
zero keeps its sign, and zero has the sign of its divisor. -/
def divideIntegers (n m : Int) : Except Fault Decimal :=
  if m = 0 then .error .divisionByZero
  else match Decimal.ofQuotient ((n < 0) != (m < 0)) n.natAbs m.natAbs with
    | .infinite _ => .error .quotientBeyondDecimal
    | quotient => .ok quotient

/-- The quotient of two numbers, always a decimal number. -/
def divide : Number → Number → Except Fault Number
  | integer n, integer m => decimal <$> divideIntegers n m
  | a, b => do
    let dividend ← a.toDecimal
    let divisor ← b.toDecimal
    if divisor.isZero then .error .decimalDivisionByZero
    else return decimal (dividend.div divisor)

/-- Whether the number is zero. -/
def isZero : Number → Bool
  | integer n => n = 0
  | decimal d => d.isZero

/-- Whether the number is one. -/
def isOne : Number → Bool
  | integer n => n = 1
  | decimal d => d.isOne

/-- Whether the number is less than zero. -/
def isNegative : Number → Bool
  | integer n => n < 0
  | decimal d => d.isNegative

end Number

/-- The operation on numbers that an associative operation stands for. -/
def AssocOp.apply : AssocOp → Number → Number → Except Fault Number
  | sum => Number.add
  | product => Number.mul

/-- The number that the operation starts from. -/
def AssocOp.unit : AssocOp → Number
  | sum => .integer 0
  | product => .integer 1

/-- Whether a number can be left out among other terms of the operation. -/
def AssocOp.isUnit : AssocOp → Number → Bool
  | sum => Number.isZero
  | product => Number.isOne

end TermAlgebra
