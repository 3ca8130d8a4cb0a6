import TermAlgebra.Simplify.Constants
import TermAlgebra.Simplify.Trace

/-!
# Simplifying divisions

Every outermost division of an expression is reduced to a constant where possible, and has its
sides simplified otherwise. Main definition: `Expr.resolveDivisions`, in which the way to simplify
a side is a parameter.
-/

namespace TermAlgebra.Expr

/-- A division that does not reduce as it stands is reduced after its sides have been
simplified. -/
def resolveDivision (side : Expr → Traced Expr) (l r : Expr) : Traced Expr := do
  match ← reduceQuotient? l r with
  | some constant => return constant
  | none =>
    let left ← side l
    let right ← side r
    if division left right == division l r then return division l r
    else reduceQuotient left right

mutual

/-- The expression with its outermost divisions reduced or simplified, and without the parentheses
around them. -/
def resolveDivisions (side : Expr → Traced Expr) : Expr → Traced Expr
  | division l r => resolveDivision side l r
  | nary op a b rest => do
    let a ← resolveDivisions side a
    let b ← resolveDivisions side b
    return nary op a b (← resolveDivisionsAll side rest)
  | negation e => do return negation (← resolveDivisions side e)
  | parentheses e => resolveDivisions side e
  | e => return e

/-- All the expressions with their outermost divisions reduced or simplified. -/
def resolveDivisionsAll (side : Expr → Traced Expr) : List Expr → Traced (List Expr)
  | [] => return []
  | e :: es => do
    let e ← resolveDivisions side e
    return e :: (← resolveDivisionsAll side es)

end

end TermAlgebra.Expr
