import TermAlgebra.Decimal.Rounding

/-!
# Decimal numbers

The values of decimal constants: the numbers of the binary64 format, with signed zeros and
infinities, and undefined values. Every operation is the exact one on quotients of whole numbers,
followed by one rounding to the nearest number.

Main definitions: `Decimal`, `Decimal.ofQuotient`, the operations `add`, `mul`, `div`, `neg` and
`abs`, and the comparison `Decimal.agrees`.
-/

namespace TermAlgebra

open Rounding

/-- What tells an undefined value apart from others. The result of an operation has no label. A
value that is written out is given a number, and a calculated one is numbered later on, in an
expression with divisions of some depth. -/
inductive Decimal.Label
  | unlabelled
  | given (number : Nat)
  | calculated (depth number : Nat)
deriving DecidableEq

/-- A decimal number. A finite one has a sign and the rank of its magnitude, so that zero has two
forms. An undefined value carries a label that tells it apart from other undefined values. -/
inductive Decimal
  | finite (negative : Bool) (rank : Nat) (rank_lt : rank < infinityRank)
  | infinite (negative : Bool)
  | undefined (label : Decimal.Label)
deriving DecidableEq

namespace Decimal

/-- The number with the given sign and rank of magnitude. -/
def ofRank (negative : Bool) (rank : Nat) : Decimal :=
  if h : rank < infinityRank then finite negative rank h else infinite negative

/-- The decimal number nearest to `num / den` or its negative, for a positive `den`. -/
def ofQuotient (negative : Bool) (num den : Nat) : Decimal :=
  ofRank negative (rank num den)

/-- The number one. -/
def one : Decimal := ofQuotient false 1 1

/-- The decimal number nearest to a whole number, if that is finite. -/
def ofInt? (n : Int) : Option Decimal :=
  match ofQuotient (n < 0) n.natAbs 1 with
  | infinite _ => none
  | d => some d

/-- The result of an operation that has none: an undefined value without a label. -/
def invalid : Decimal := undefined .unlabelled

/-- The opposite number. -/
def neg : Decimal → Decimal
  | finite s r h => finite (!s) r h
  | infinite s => infinite (!s)
  | undefined _ => invalid

/-- The absolute value. -/
def abs : Decimal → Decimal
  | finite _ r h => finite false r h
  | infinite _ => infinite false
  | undefined _ => invalid

/-- Whether a magnitude of the given rank counts with a minus sign, as a signed numerator. -/
def signedNumerator (negative : Bool) (num : Nat) : Int :=
  if negative then -(num : Int) else num

/-- The rounded sum. A sum of exactly zero is positive unless both terms are negative zeros. -/
def add : Decimal → Decimal → Decimal
  | undefined _, _ => invalid
  | _, undefined _ => invalid
  | infinite s, infinite t => if s = t then infinite s else invalid
  | infinite s, finite .. => infinite s
  | finite .., infinite t => infinite t
  | finite s r _, finite t q _ =>
    let a := quotient r
    let b := quotient q
    let num := signedNumerator s a.1 * b.2 + signedNumerator t b.1 * a.2
    let negative := if num = 0 then s && t else num < 0
    ofQuotient negative num.natAbs (a.2 * b.2)

/-- The rounded product. -/
def mul : Decimal → Decimal → Decimal
  | undefined _, _ => invalid
  | _, undefined _ => invalid
  | infinite s, infinite t => infinite (s != t)
  | infinite s, finite t q _ => if q = 0 then invalid else infinite (s != t)
  | finite s r _, infinite t => if r = 0 then invalid else infinite (s != t)
  | finite s r _, finite t q _ =>
    let a := quotient r
    let b := quotient q
    ofQuotient (s != t) (a.1 * b.1) (a.2 * b.2)

/-- The rounded quotient, for a divisor that is not zero. -/
def div : Decimal → Decimal → Decimal
  | undefined _, _ => invalid
  | _, undefined _ => invalid
  | infinite _, infinite _ => invalid
  | infinite s, finite t _ _ => infinite (s != t)
  | finite s _ _, infinite t => ofRank (s != t) 0
  | finite s r _, finite t q _ =>
    let a := quotient r
    let b := quotient q
    ofQuotient (s != t) (a.1 * b.2) (a.2 * b.1)

/-- Whether the number is a zero of either sign. -/
def isZero : Decimal → Bool
  | finite _ r _ => r = 0
  | _ => false

/-- Whether the number is one. -/
def isOne (d : Decimal) : Bool :=
  d = one

/-- Whether the number is less than zero. -/
def isNegative : Decimal → Bool
  | finite s r _ => s && r ≠ 0
  | infinite s => s
  | undefined _ => false

/-- Whether the value is undefined. -/
def isUndefined : Decimal → Bool
  | undefined _ => true
  | _ => false

/-- Numbers agree if they have the same value, so the two zeros do. An undefined value agrees only
with one of the same label, so values that are to be told apart have to be labelled before. -/
def agrees : Decimal → Decimal → Bool
  | finite s r _, finite t q _ => r = q && (r = 0 || s = t)
  | infinite s, infinite t => s = t
  | undefined a, undefined b => a = b
  | _, _ => false

/-- Every value agrees with itself. -/
@[simp] theorem agrees_self (d : Decimal) : d.agrees d = true := by
  cases d <;> simp [agrees]

/-- Agreement is symmetric. -/
theorem agrees_comm (d e : Decimal) : d.agrees e = e.agrees d := by
  cases d <;> cases e <;> simp only [agrees]
  · next s r _ t q _ =>
    rw [Bool.eq_iff_iff]
    simp only [Bool.and_eq_true, Bool.or_eq_true, decide_eq_true_eq]
    grind
  · rw [Bool.eq_iff_iff]; simp [eq_comm]
  · rw [Bool.eq_iff_iff]; simp [eq_comm]

end Decimal

end TermAlgebra
