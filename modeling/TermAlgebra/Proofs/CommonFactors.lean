import Mathlib.Tactic
import TermAlgebra.Proofs.Passes

/-!
# Values of factorizations

A factorization of a sum is an equivalent form of it.

The parts of a factorization inherit from the sum that they have values (`defined_parts`), and the
sum that it stands for is a rewriting of the sum it has been made of (`refines_expr`).  So the
factorization has the value of the sum, as three parts and as one expression
(`value_of_factorization`).
-/

namespace TermAlgebra.Expr

variable {ρ : String → ℚ}

/-- Only a sum has factorizations, namely those of its terms. -/
lemma exists_of_mem_factorizations {S : Expr} {F : Factorization} (hF : F ∈ S.factorizations) :
    ∃ a b rest, S = sum a b rest ∧ F ∈ factorizationsOf (a :: b :: rest) := by
  cases S with
  | nary op a b rest =>
    cases op with
    | sum => exact ⟨a, b, rest, rfl, hF⟩
    | product => exact absurd hF List.not_mem_nil
  | _ => exact absurd hF List.not_mem_nil

/-- The parts of a factorization of terms with values have values, unless there is no remainder. -/
lemma defined_parts {es : List Expr} (hes : ∀ e ∈ es, e.Defined ρ) {F : Factorization}
    (hF : F ∈ factorizationsOf es) : F.factor.Defined ρ ∧ F.cofactor.Defined ρ ∧
      (F.remainder = empty ∨ F.remainder.Defined ρ) := by
  obtain ⟨f, hf, rfl⟩ := mem_factorizationsOf.1 hF
  have hQ := hereditary_defined ρ
  refine ⟨hQ.factor hes hf, hQ.cofactor hes hf, ?_⟩
  rw [← isEmpty_iff]
  exact hQ.remainder hes f

/-- The sum that a factorization stands for has the value of the sum of the terms. -/
lemma refines_expr {es : List Expr} (hne : es ≠ []) {F : Factorization}
    (hF : F ∈ factorizationsOf es) : Refines ρ (ofTerms .sum es) F.expr :=
  (refines_unmerged hne hF).trans (rewrites_recollected (.refl _) (.refl _) id).refines

/-- Every factorization of a sum that has a value is an equivalent form of it: its factor times its
cofactor plus its remainder has the value of the sum, and so has the expression that it stands
for. -/
theorem value_of_factorization {S : Expr} {F : Factorization} (hF : F ∈ S.factorizations)
    (hS : S.Defined ρ) :
    (F.factor.Defined ρ ∧ F.cofactor.Defined ρ ∧
      (F.remainder = empty ∨ F.remainder.Defined ρ)) ∧
    F.factor.value ρ * F.cofactor.value ρ + F.remainder.value ρ = S.value ρ ∧
    F.expr.Defined ρ ∧ F.expr.value ρ = S.value ρ := by
  obtain ⟨a, b, rest, rfl, hF⟩ := exists_of_mem_factorizations hF
  have hne : a :: b :: rest ≠ [] := List.cons_ne_nil _ _
  have hes : ∀ e ∈ a :: b :: rest, e.Defined ρ := ((hereditary_defined ρ).ofTerms .sum hne).1 hS
  have hexpr := refines_expr hne hF hS
  refine ⟨defined_parts hes hF, ?_, hexpr⟩
  obtain ⟨f, hf, rfl⟩ := mem_factorizationsOf.1 hF
  rw [value_factorizationBy hes hf]
  exact (value_nary ρ .sum a b rest).symm

/-- For instance a square that occurs in a product and, with its factors apart, in a negated one. -/
theorem value_of_factorization_square :
    (sum (product (var "x") (var "x") [var "y"])
        (negation (product (var "x") (var "z") [var "x"])) [integer 3]).factorizations.head? =
      some ⟨product (var "x") (var "x") [], sum (var "y") (negation (var "z")) [], integer 3⟩ ∧
    (product (var "x") (var "x") []).value (fun s => if s = "y" then 5 else 2) *
        (sum (var "y") (negation (var "z")) []).value (fun s => if s = "y" then 5 else 2) +
        (integer 3).value (fun s => if s = "y" then 5 else 2) =
      (sum (product (var "x") (var "x") [var "y"])
        (negation (product (var "x") (var "z") [var "x"])) [integer 3]).value
          fun s => if s = "y" then 5 else 2 := by
  have hhead : (sum (product (var "x") (var "x") [var "y"])
      (negation (product (var "x") (var "z") [var "x"])) [integer 3]).factorizations.head? =
        some ⟨product (var "x") (var "x") [], sum (var "y") (negation (var "z")) [], integer 3⟩ :=
    rfl
  have hdef : (sum (product (var "x") (var "x") [var "y"])
      (negation (product (var "x") (var "z") [var "x"])) [integer 3]).Defined
        fun s => if s = "y" then 5 else 2 := by
    simp [Defined, AllDefined]
  exact ⟨hhead, (value_of_factorization (List.mem_of_mem_head? hhead) hdef).2.1⟩

end TermAlgebra.Expr
