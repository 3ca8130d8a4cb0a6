import TermAlgebra.Expr.Algebra
import TermAlgebra.Main
import TermAlgebra.Operand
import TermAlgebra.Proofs.Kinds
import TermAlgebra.Proofs.Hereditary
import TermAlgebra.Proofs.Outcome
import TermAlgebra.Proofs.Value
import TermAlgebra.Proofs.Strike
import TermAlgebra.Proofs.Factorization
import TermAlgebra.Proofs.Folding
import TermAlgebra.Proofs.Rewriting
import TermAlgebra.Proofs.Passes
import TermAlgebra.Proofs.Labelling
import TermAlgebra.Proofs.Runs
import TermAlgebra.Proofs.Grammar
import TermAlgebra.Proofs.FoldedForm
import TermAlgebra.Proofs.Nesting
import TermAlgebra.Proofs.Settling
import TermAlgebra.Proofs.Monomials
import TermAlgebra.Proofs.Collecting
import TermAlgebra.Proofs.Constancy
import TermAlgebra.Proofs.NormalForm
import TermAlgebra.Proofs.Assembling
import TermAlgebra.Proofs.Acceptance
import TermAlgebra.Proofs.Overflow
import TermAlgebra.Proofs.Magnitude
import TermAlgebra.Proofs.Lexing
import TermAlgebra.Proofs.ShortLines
import TermAlgebra.Proofs.Recovery
import TermAlgebra.Proofs.Sessions
import TermAlgebra.Proofs.Meaning
import TermAlgebra.Proofs.Phrases
import TermAlgebra.Proofs.Rendering
import TermAlgebra.Proofs.Flattening
import TermAlgebra.Proofs.Conservation
import TermAlgebra.Proofs.Reading
import TermAlgebra.Proofs.FoldingLaws
import TermAlgebra.Proofs.Shrinking
import TermAlgebra.Proofs.Convergence
import TermAlgebra.Proofs.ShortRuns
import TermAlgebra.Proofs.Occurrences
import TermAlgebra.Proofs.VariableOrder
import TermAlgebra.Proofs.Interchange
import TermAlgebra.Proofs.Alike
import TermAlgebra.Proofs.Rereading
import TermAlgebra.Proofs.Roundtrip
import TermAlgebra.Proofs.RenamedRuns
import TermAlgebra.Proofs.Termination
import TermAlgebra.Proofs.Outline
import TermAlgebra.Proofs.Distributing
import TermAlgebra.Proofs.Expanded
import TermAlgebra.Proofs.Lightening
import TermAlgebra.Proofs.Merging
import TermAlgebra.Proofs.LikeTerms
import TermAlgebra.Proofs.Lexemes
import TermAlgebra.Proofs.Spacing
import TermAlgebra.Proofs.LongestMatch
import TermAlgebra.Proofs.ReadableDecimals
import TermAlgebra.Proofs.CommonFactors
import TermAlgebra.Proofs.Grouping
import TermAlgebra.Proofs.LikeMonomials
import TermAlgebra.Proofs.Choices
import TermAlgebra.Proofs.Quotients
import TermAlgebra.Proofs.Parentheses
import TermAlgebra.Proofs.Enclosing
import TermAlgebra.Proofs.TakenPowers
import TermAlgebra.Proofs.Recollection
import TermAlgebra.Proofs.ExactQuotients
