import TermAlgebra.Expr.Evaluate

/-!
# Folding constants

The constants among the terms of a sum or product are calculated and put in front, and quotients of
constants are reduced where their value is a constant. Main definitions: `commonDivisor`, `divides`,
`Expr.reduceQuotient?`, `Expr.foldTerms` and `Expr.foldConstants`.
-/

namespace TermAlgebra

/-- Euclid's algorithm: as long as the second number is not zero, it takes the place of the first
one, and the remainder of the first one by it takes its own place. -/
@[semireducible] def euclid (a b : Nat) : Nat :=
  if b = 0 then a else euclid b (a % b)
termination_by b
decreasing_by exact Nat.mod_lt a (Nat.pos_of_ne_zero ‹_›)

/-- The greatest common divisor of two whole numbers of any sign. -/
def commonDivisor (a b : Int) : Nat :=
  euclid a.natAbs b.natAbs

/-- A round of Euclid's algorithm keeps the common divisors, so that the last number has just
these. -/
theorem dvd_euclid_iff {d a b : Nat} : d ∣ euclid a b ↔ d ∣ a ∧ d ∣ b := by
  fun_induction euclid a b with
  | case1 a => exact (and_iff_left (Nat.dvd_zero d)).symm
  | case2 a b hb ih =>
    rw [ih, and_comm]
    exact and_congr_left fun hdb => Nat.dvd_mod_iff hdb

/-- The divisors of the greatest common divisor are the common divisors. -/
theorem dvd_commonDivisor_iff {d a b : Int} : d ∣ commonDivisor a b ↔ d ∣ a ∧ d ∣ b := by
  rw [← Int.natAbs_dvd_natAbs, Int.natAbs_natCast, commonDivisor, dvd_euclid_iff,
    Int.natAbs_dvd_natAbs, Int.natAbs_dvd_natAbs]

/-- Whether `b` divides `a` for the purpose of reducing a quotient: `b` is their greatest common
divisor and not zero. No negative number divides another one in this sense. -/
def divides (b a : Int) : Bool :=
  b ≠ 0 && (commonDivisor a b : Int) = b

/-- Quotients of integers are reduced exactly when the divisor is positive and leaves no
remainder. -/
theorem divides_iff {a b : Int} : divides b a = true ↔ 0 < b ∧ b ∣ a := by
  simp only [divides, ne_eq, decide_not, Bool.and_eq_true, Bool.not_eq_true',
    decide_eq_false_iff_not, decide_eq_true_eq]
  constructor
  · rintro ⟨hb, h⟩
    have hdvd : (commonDivisor a b : Int) ∣ a := (dvd_commonDivisor_iff.1 (Int.dvd_refl _)).1
    exact ⟨by omega, h ▸ hdvd⟩
  · rintro ⟨hb, h⟩
    refine ⟨by omega, Int.dvd_antisymm (by omega) (by omega) ?_ ?_⟩
    · exact (dvd_commonDivisor_iff.1 (Int.dvd_refl _)).2
    · exact dvd_commonDivisor_iff.2 ⟨h, Int.dvd_refl b⟩

namespace Expr

/-- The constant that a quotient of constants reduces to: an integer where an integer divides
another, and a decimal where a decimal takes part and the divisor is not zero. -/
def reduceQuotient? : Expr → Expr → Except Fault (Option Expr)
  | integer a, integer b => .ok (if divides b a then some (integer (a / b)) else none)
  | l, r =>
    match l.constant?, r.constant? with
    | some a, some b =>
      if b.isZero then .ok none else (fun quotient => some (ofNumber quotient)) <$> a.divide b
    | _, _ => .ok none

/-- The quotient of two expressions, reduced to a constant where possible. -/
def reduceQuotient (l r : Expr) : Except Fault Expr :=
  (·.getD (division l r)) <$> reduceQuotient? l r

/-- The result of `op` on some numbers, if there are any. -/
def foldNumbers (op : AssocOp) : List Number → Except Fault (Option Number)
  | [] => .ok none
  | first :: rest => some <$> rest.foldlM op.apply first

/-- Whether the expression is a constant of value zero. -/
def isZeroConstant (e : Expr) : Bool :=
  e.constant?.any Number.isZero

/-- The terms of `op` gathered with their constants folded into one in front, which is left out if
it changes nothing and other terms remain. -/
def gatherFolded (op : AssocOp) (terms : List Expr) : Except Fault Expr := do
  let constant ← foldNumbers op (terms.filterMap constant?)
  let others := terms.filter fun e => !e.isConstant
  let kept := if !others.isEmpty && constant.any op.isUnit then none else constant
  return gather op ((kept.map ofNumber).toList ++ others)

/-- One expression for some operands of `op`, with their constants folded. A product with a zero
among its factors is the integer zero. -/
def foldTerms (op : AssocOp) (operands : List Expr) : Except Fault Expr :=
  let terms := merged op operands
  if op = .product && terms.any isZeroConstant then .ok (integer 0)
  else gatherFolded op terms

mutual

/-- The expression with its constants folded. A negation is the product with minus one. -/
def foldConstants : Expr → Except Fault Expr
  | negation e => do foldTerms .product [integer (-1), ← foldConstants e]
  | nary op a b rest => do
    let a ← foldConstants a
    let b ← foldConstants b
    foldTerms op (a :: b :: (← foldConstantsAll rest))
  | division l r => do
    let l ← foldConstants l
    reduceQuotient l (← foldConstants r)
  | parentheses e => foldConstants e
  | e => .ok e

/-- All the expressions with their constants folded. -/
def foldConstantsAll : List Expr → Except Fault (List Expr)
  | [] => .ok []
  | e :: es => do
    let e ← foldConstants e
    return e :: (← foldConstantsAll es)

end

/-- The list is folded item by item. -/
theorem foldConstantsAll_eq_mapM (es : List Expr) :
    foldConstantsAll es = es.mapM foldConstants := by
  induction es with
  | nil => rfl
  | cons e es ih => rw [foldConstantsAll, List.mapM_cons, ih]

end Expr

end TermAlgebra
