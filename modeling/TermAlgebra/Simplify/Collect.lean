import TermAlgebra.Simplify.Constants
import TermAlgebra.Simplify.Factor

/-!
# Collecting common factors

Of all ways to take common factors out of a sum the simplest is chosen, and the parts are treated
alike. Main definitions: `Expr.simplestOf` and `Expr.collect`.
-/

namespace TermAlgebra.Expr

/-- The first expression of least complexity. -/
def simplestOf (first : Expr) (others : List Expr) : Expr :=
  others.foldl (fun best e => if e.complexity < best.complexity then e else best) first

/-- The sum that a factorization stands for after its two parts have been collected. -/
def recollect (again : Expr → Except Fault Expr) (f : Factorization) : Except Fault Expr := do
  let cofactor ← again f.cofactor
  let remainder ← again f.remainder
  foldConstants (Factorization.expr ⟨f.factor, cofactor, remainder⟩)

/-- The simplest form of a sum, given its terms and these terms collected. A factor of a single
term usually leaves no sum as its cofactor, and is not tried then. -/
def collectSum (again : Expr → Except Fault Expr) (terms collected : List Expr) :
    Except Fault Expr := do
  let plain ← foldConstants (gather .sum collected)
  let useful := (factorizationsOf terms).filter fun f => f.cofactor.isNary .sum
  return simplestOf plain (← useful.mapM (recollect again))

mutual

/-- The expression with common factors taken out of its sums, where the parts of a factored sum
are treated by `again`. -/
def collectWith (again : Expr → Except Fault Expr) : Expr → Except Fault Expr
  | sum a b rest => do
    let first ← collectWith again a
    let second ← collectWith again b
    let others ← collectAllWith again rest
    collectSum again (a :: b :: rest) (first :: second :: others)
  | product a b rest => do
    let first ← collectWith again a
    let second ← collectWith again b
    let others ← collectAllWith again rest
    return gather .product (merged .product (first :: second :: others))
  | negation e => negation <$> collectWith again e
  | division l r => do
    let l ← collectWith again l
    return division l (← collectWith again r)
  | parentheses e => collectWith again e
  | e => .ok e

/-- All the expressions with common factors taken out of their sums. -/
def collectAllWith (again : Expr → Except Fault Expr) : List Expr → Except Fault (List Expr)
  | [] => .ok []
  | e :: es => do
    let e ← collectWith again e
    return e :: (← collectAllWith again es)

end

/-- Collecting for expressions of at most `size` nodes that are no constants. The parts of a
factored sum have fewer of them. -/
def collectUpTo : Nat → Expr → Except Fault Expr
  | 0, e => .ok e
  | size + 1, e => collectWith (collectUpTo size) e

/-- The expression with common factors taken out of its sums wherever that makes it simpler. -/
def collect (e : Expr) : Except Fault Expr :=
  collectUpTo e.openSize e

end TermAlgebra.Expr
