import TermAlgebra.Expr.Dump
import TermAlgebra.Simplify.Collect
import TermAlgebra.Simplify.Divisions
import TermAlgebra.Simplify.Expand
import TermAlgebra.Simplify.Flatten
import TermAlgebra.Simplify.Labels

/-!
# Simplification

A step flattens an expression, resolves its divisions and chooses between folding its constants as
it stands and after expanding and collecting it. A run repeats the step until an expression comes
back, and its result is the simplest one of the cycle that this closes. Main definitions:
`Expr.stepTraced`, `Expr.simplifyTraced` and `Expr.simplify`.
-/

namespace TermAlgebra.Expr

/-! ### The order of simplicity -/

/-- Whether one expression comes before another in the order of simplicity: it has less
complexity, or the same and the lesser dump. -/
def simpler (a b : Expr) : Bool :=
  a.complexity < b.complexity || (a.complexity = b.complexity && a.dump < b.dump)

/-- The first of the simplest expressions of a list, all of which must be writable. -/
def canonical : List Expr → Except Fault Expr
  | [] => .ok empty
  | first :: others =>
    if isWritableAll (first :: others) then
      .ok (others.foldl (fun best e => if e.simpler best then e else best) first)
    else .error .integerTooLong

/-! ### Coming back to an expression -/

mutual

/-- Whether the expression can be found again in a list: no sign, division or pair of parentheses
stands directly at an undefined constant. -/
def isStable : Expr → Bool
  | negation e => !isUndefined e && isStable e
  | nary _ a b rest => isStable a && isStable b && isStableAll rest
  | division l r => !isUndefined l && !isUndefined r && isStable l && isStable r
  | parentheses e => !isUndefined e && isStable e
  | _ => true

/-- Whether all the expressions can be found again. -/
def isStableAll : List Expr → Bool
  | [] => true
  | e :: es => isStable e && isStableAll es

end

/-- Whether an expression is the same as an earlier one. -/
def recurs (e earlier : Expr) : Bool :=
  e.isStable && e == earlier

/-! ### Steps and runs -/

/-- One step of simplification, in which the sides of divisions are treated by `side`. Undefined
values are labelled where they can have been calculated. -/
def stepWith (side : Expr → Traced Expr) (e : Expr) : Traced Expr := do
  let flat := (← resolveDivisions side e.flatten).labelled e.flatten.divisionDepth
  if flat.isDivision then return flat
  else do
    let direct ← foldConstants flat
    let collected ← foldConstants (← collect flat.expand)
    Traced.note (.step e direct.complexity collected.complexity)
    return (← foldConstants (simplestOf direct [collected])).labelled e.flatten.divisionDepth

/-- A run comes to rest within this many steps, or is broken off. -/
def stepLimit : Nat := 64

/-- Repeats a step from `current` on until an expression of the history comes back, at most `steps`
more times. -/
def runFrom (step : Expr → Traced Expr) (start : Expr) (steps : Nat) (history : List Expr)
    (current : Expr) : Traced Expr :=
  if history.any current.recurs then canonical (history.dropWhile fun e => !current.recurs e)
  else match steps with
    | 0 => do
      Traced.note (.unsettled start history.length)
      canonical history
    | steps + 1 => do runFrom step start steps (history ++ [current]) (← step current)

/-- A run of simplification steps in which the sides of divisions are treated by `side`. -/
def runWith (side : Expr → Traced Expr) (e : Expr) : Traced Expr :=
  runFrom (stepWith side) e stepLimit [] e

/-- Simplification for expressions of at most the given division depth. The sides of a division
have a lesser depth. -/
def simplifyUpTo : Nat → Expr → Traced Expr
  | 0 => runWith pure
  | depth + 1 => runWith (simplifyUpTo depth)

/-- The simplified form of an expression, with the notes on the way to it. -/
def simplifyTraced (e : Expr) : Traced Expr :=
  simplifyUpTo e.divisionDepth e

/-- One step of the simplification of an expression, with the notes on the way. -/
def stepTraced (e : Expr) : Traced Expr :=
  stepWith simplifyTraced e

/-- The simplified form of an expression. -/
def simplify (e : Expr) : Except Fault Expr :=
  e.simplifyTraced.result

/-- One step of the simplification of an expression. -/
def step (e : Expr) : Except Fault Expr :=
  e.stepTraced.result

/-- The expression with its outermost divisions reduced or simplified. -/
def simplifyDivisions (e : Expr) : Except Fault Expr :=
  (resolveDivisions simplifyTraced e).result

/-- The simplified form of a division. -/
def simplifyDivision (l r : Expr) : Except Fault Expr :=
  (resolveDivision simplifyTraced l r).result

end TermAlgebra.Expr
