import TermAlgebra.Operand

/-!
# Arithmetic on expressions

Sums, differences, products and quotients of expressions. Two constants are calculated at once and
the empty expression changes nothing; otherwise a node is built. Main definitions: `Expr.combine`,
`Expr.add`, `Expr.sub`, `Expr.mul` and `Expr.div`.
-/

namespace TermAlgebra.Expr

/-- Two operands of `op` combined into one expression. -/
def combine (op : AssocOp) : Expr → Expr → Except Fault Expr
  | empty, b => .ok b
  | a, empty => .ok a
  | a, b =>
    match a.constant?, b.constant? with
    | some n, some m => ofNumber <$> op.apply n m
    | _, _ => .ok (join op a b)

/-- The sum of two expressions. -/
def add (a b : Expr) : Except Fault Expr :=
  combine .sum a b

/-- The difference of two expressions, as the sum with a negation. -/
def sub (a b : Expr) : Except Fault Expr :=
  combine .sum a (negation b)

/-- The product of two expressions. -/
def mul (a b : Expr) : Except Fault Expr :=
  combine .product a b

/-- The quotient of two expressions. -/
def div (a b : Expr) : Except Fault Expr :=
  .ok (division a b)

/-- An operation on expressions applied to operands, the left one converted first. -/
def onOperands (operation : Expr → Expr → Except Fault Expr) (a b : Operand) :
    Except Fault Expr := do
  operation (← a.toExpr) (← b.toExpr)

end TermAlgebra.Expr
