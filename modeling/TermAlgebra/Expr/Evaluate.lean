import TermAlgebra.Expr.Basic
import TermAlgebra.Number

/-!
# Values of expressions

An expression has a value once its variables have one. Terms are taken from left to right,
starting from zero in a sum and from one in a product, and the first fault on the way is the
result. Main definitions: `Expr.constant?`, `Expr.ofNumber` and `Expr.evaluate`.
-/

namespace TermAlgebra.Expr

/-- The number of a constant. -/
def constant? : Expr → Option Number
  | integer n => some (.integer n)
  | decimal d => some (.decimal d)
  | _ => none

/-- The constant of a number. -/
def ofNumber : Number → Expr
  | .integer n => integer n
  | .decimal d => decimal d

@[simp] theorem constant?_ofNumber (n : Number) : (ofNumber n).constant? = some n := by
  cases n <;> rfl

/-- The constants are the expressions with a number. -/
theorem isSome_constant? (e : Expr) : e.constant?.isSome = e.isConstant := by
  cases e <;> rfl

mutual

/-- The value of an expression under an assignment of numbers to names. -/
def evaluate (values : String → Option Number) : Expr → Except Fault Number
  | empty => .ok (.integer 0)
  | integer n => .ok (.integer n)
  | decimal d => .ok (.decimal d)
  | var s => (values s).elim (.error (.unbound s)) .ok
  | negation e => Number.neg <$> evaluate values e
  | nary op a b rest => do
    let first ← op.apply op.unit (← evaluate values a)
    let second ← op.apply first (← evaluate values b)
    evaluateFrom values op second rest
  | division l r => do
    let dividend ← evaluate values l
    let divisor ← evaluate values r
    dividend.divide divisor
  | parentheses e => evaluate values e

/-- The value of further terms of `op` on top of the value so far. -/
def evaluateFrom (values : String → Option Number) (op : AssocOp) (value : Number) :
    List Expr → Except Fault Number
  | [] => .ok value
  | e :: es => do evaluateFrom values op (← op.apply value (← evaluate values e)) es

end

end TermAlgebra.Expr
