import TermAlgebra.Expr.Basic

/-!
# Expansion

Products are distributed over the sums among their factors. Main definitions: `Expr.choices`,
`Expr.distribute` and `Expr.expand`.
-/

namespace TermAlgebra.Expr

/-- All ways to choose one term of every factor. The choice from the first factor varies
fastest. -/
def choices : List Expr → List (List Expr)
  | [] => [[]]
  | factor :: factors =>
    (choices factors).flatMap fun others => (factor.terms .sum).map fun term => term :: others

/-- The sum of the products of all choices of one term of every factor. -/
def distribute (factors : List Expr) : Expr :=
  gather .sum ((choices factors).map fun choice => gather .product (merged .product choice))

mutual

/-- The expression as a sum of products. A negation is the product with minus one. -/
def expand : Expr → Expr
  | negation e => distribute [integer (-1), expand e]
  | sum a b rest => gather .sum (merged .sum (expand a :: expand b :: expandAll rest))
  | product a b rest => distribute (expand a :: expand b :: expandAll rest)
  | division l r => division (expand l) (expand r)
  | parentheses e => expand e
  | e => e

/-- All the expressions expanded. -/
def expandAll : List Expr → List Expr
  | [] => []
  | e :: es => expand e :: expandAll es

end

/-- The list is expanded item by item. -/
theorem expandAll_eq_map (es : List Expr) : expandAll es = es.map expand := by
  induction es with
  | nil => rfl
  | cons e es ih => simp [expandAll, ih]

/-- The terms of a sum are expanded and merged. -/
theorem expand_sum (a b : Expr) (rest : List Expr) :
    (sum a b rest).expand = gather .sum (merged .sum ((a :: b :: rest).map expand)) := by
  rw [expand, expandAll_eq_map, List.map_cons, List.map_cons]

/-- The factors of a product are expanded and distributed. -/
theorem expand_product (a b : Expr) (rest : List Expr) :
    (product a b rest).expand = distribute ((a :: b :: rest).map expand) := by
  rw [expand, expandAll_eq_map, List.map_cons, List.map_cons]

end TermAlgebra.Expr
