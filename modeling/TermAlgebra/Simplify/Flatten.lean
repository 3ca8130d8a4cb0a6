import TermAlgebra.Expr.Basic

/-!
# Flattening

Sums within sums and products within products are merged into one node, and parentheses and empty
terms are left out. Main definition: `Expr.flatten`.
-/

namespace TermAlgebra.Expr

mutual

/-- The expression without parentheses and without nested nodes of one operation. -/
def flatten : Expr → Expr
  | nary op a b rest => gather op (merged op (flatten a :: flatten b :: flattenAll rest))
  | negation e => negation (flatten e)
  | division l r => division (flatten l) (flatten r)
  | parentheses e => flatten e
  | e => e

/-- All the expressions flattened. -/
def flattenAll : List Expr → List Expr
  | [] => []
  | e :: es => flatten e :: flattenAll es

end

/-- The list is flattened item by item. -/
theorem flattenAll_eq_map (es : List Expr) : flattenAll es = es.map flatten := by
  induction es with
  | nil => rfl
  | cons e es ih => simp [flattenAll, ih]

end TermAlgebra.Expr
