import Mathlib.Tactic
import TermAlgebra.Proofs.FoldedForm

/-!
# Collecting

Collecting common factors always succeeds where no decimal occurs (`exists_collectUpTo`), and it
never ends at a more complicated sum than one of its candidates (`complexity_simplestOf_le`).  A
factorization whose cofactor is collected to zero is a candidate that is as simple as its remainder
(`recollect_of_zero`).
-/

namespace TermAlgebra.Expr

/-! ### The simplest candidate -/

/-- The simplest expression is no more complicated than any it is chosen from. -/
lemma complexity_simplestOf_le (first : Expr) (others : List Expr) :
    ∀ e ∈ first :: others, (simplestOf first others).complexity ≤ e.complexity := by
  induction others generalizing first with
  | nil =>
    intro e he
    rw [List.mem_singleton.1 he]
    exact le_rfl
  | cons e others ih =>
    have hchoice := ih (if e.complexity < first.complexity then e else first)
    have hfirst := hchoice _ List.mem_cons_self
    have hbest : (if e.complexity < first.complexity then e else first).complexity ≤
          first.complexity ∧
        (if e.complexity < first.complexity then e else first).complexity ≤ e.complexity := by
      split
      · next hlt => exact ⟨hlt.le, le_rfl⟩
      · next hnot => exact ⟨le_rfl, Nat.le_of_not_lt hnot⟩
    intro t ht
    rcases List.mem_cons.1 ht with rfl | ht
    · exact hfirst.trans hbest.1
    · rcases List.mem_cons.1 ht with rfl | ht
      · exact hfirst.trans hbest.2
      · exact hchoice t (List.mem_cons_of_mem _ ht)

/-- If no other expression is simpler than the first one, this is chosen. -/
lemma simplestOf_eq_first {first : Expr} {others : List Expr}
    (h : ∀ e ∈ others, first.complexity ≤ e.complexity) : simplestOf first others = first := by
  induction others with
  | nil => rfl
  | cons e others ih =>
    obtain ⟨he, hothers⟩ := List.forall_mem_cons.1 h
    rw [simplestOf, List.foldl_cons, if_neg (Nat.not_lt.2 he)]
    exact ih hothers

/-- Collecting the parts of factored sums succeeds without decimals. -/
def Succeeds (again : Expr → Except Fault Expr) : Prop :=
  ∀ e : Expr, e.isDecimalFree = true → ∃ r, again e = .ok r ∧ r.isDecimalFree = true

variable {again : Expr → Except Fault Expr}

/-- Recollecting a factorization without decimals succeeds. -/
lemma exists_recollect (hagain : Succeeds again) {F : Factorization}
    (hfactor : F.factor.isDecimalFree = true) (hcofactor : F.cofactor.isDecimalFree = true)
    (hremainder : F.remainder.isDecimalFree = true) :
    ∃ r, recollect again F = .ok r ∧ r.isDecimalFree = true := by
  obtain ⟨cofactor, hc, hcfree⟩ := hagain F.cofactor hcofactor
  obtain ⟨remainder, hr, hrfree⟩ := hagain F.remainder hremainder
  have hQ := hereditary_isDecimalFree
  have hexpr : (Factorization.expr ⟨F.factor, cofactor, remainder⟩).isDecimalFree = true := by
    refine hQ.gather .sum (List.cons_ne_nil _ _) ?_
    rw [List.forall_mem_cons, List.forall_mem_singleton]
    exact ⟨(hQ.join .product F.factor cofactor).2 ⟨hfactor, hcfree⟩, hrfree⟩
  obtain ⟨r, hfold, hfree⟩ := exists_foldConstants hexpr
  exact ⟨r, recollect_eq_ok_iff.2 ⟨cofactor, remainder, hc, hr, hfold⟩, hfree⟩

/-- Collecting a sum without decimals succeeds. -/
lemma exists_collectSum (hagain : Succeeds again) {terms collected : List Expr}
    (hterms : ∀ t ∈ terms, t.isDecimalFree = true) (hne : collected ≠ [])
    (hcollected : ∀ t ∈ collected, t.isDecimalFree = true) :
    ∃ plain candidates, foldConstants (gather .sum collected) = .ok plain ∧
      List.Forall₂ (fun F c => recollect again F = .ok c) (usefulFactorizations terms) candidates ∧
      ∀ r ∈ plain :: candidates, r.isDecimalFree = true := by
  have hQ := hereditary_isDecimalFree
  obtain ⟨plain, hplain, hplainfree⟩ := exists_foldConstants (hQ.gather .sum hne hcollected)
  have hall : ∀ F ∈ usefulFactorizations terms,
      ∃ c, recollect again F = .ok c ∧ c.isDecimalFree = true := by
    intro F hF
    obtain ⟨f, hf, rfl⟩ := mem_factorizationsOf.1 (List.mem_filter.1 hF).1
    refine exists_recollect hagain (hQ.factor hterms hf) (hQ.cofactor hterms hf) ?_
    rcases hQ.remainder hterms f with hempty | hremainder
    · rw [isEmpty_iff.1 hempty]
      rfl
    · exact hremainder
  obtain ⟨candidates, hcandidates, hfree⟩ := exists_forall₂_of_forall_and hall
  exact ⟨plain, candidates, hplain, hcandidates, List.forall_mem_cons.2 ⟨hplainfree, hfree⟩⟩

/-- Collecting succeeds without decimals if collecting the parts of factored sums does. -/
lemma exists_collectWith (hagain : Succeeds again) : Succeeds (collectWith again) := by
  have hQ := hereditary_isDecimalFree
  intro e he
  induction e using Expr.induction with
  | negation e ih =>
    obtain ⟨r, hr, hfree⟩ := ih ((hQ.negation e).1 he)
    exact ⟨negation r, Outcome.map_eq_ok_iff.2 ⟨r, hr, rfl⟩, (hQ.negation r).2 hfree⟩
  | nary op a b rest ih =>
    rw [hQ.nary] at he
    have hall : ∀ t ∈ a :: b :: rest,
        ∃ r, collectWith again t = .ok r ∧ r.isDecimalFree = true :=
      fun t ht => ih t ht (he t ht)
    obtain ⟨rs, hrs, hfree⟩ := exists_forall₂_of_forall_and hall
    have hne : rs ≠ [] := ne_nil_of_forall₂ hrs (List.cons_ne_nil _ _)
    cases op with
    | sum =>
      obtain ⟨plain, candidates, hplain, hcandidates, hcfree⟩ :=
        exists_collectSum hagain he hne hfree
      exact ⟨simplestOf plain candidates, collectWith_sum_eq_ok_iff.2
        ⟨rs, hrs, collectSum_eq_ok_iff.2 ⟨plain, candidates, hplain, hcandidates, rfl⟩⟩,
        hcfree _ (simplestOf_mem plain candidates)⟩
    | product =>
      refine ⟨_, collectWith_product_eq_ok_iff.2 ⟨rs, hrs, rfl⟩, ?_⟩
      exact hQ.gather .product (merged_ne_nil .product hne) ((hQ.merged .product rs).2 hfree)
  | division l r hl hr =>
    rw [isDecimalFree_division_iff] at he
    obtain ⟨l', hl', hlfree⟩ := hl he.1
    obtain ⟨r', hr', hrfree⟩ := hr he.2
    refine ⟨division l' r', ?_, isDecimalFree_division_iff.2 ⟨hlfree, hrfree⟩⟩
    rw [collectWith, hl', hr']
    rfl
  | parentheses e ih => exact ih (isDecimalFree_parentheses_iff.1 he)
  | _ => exact ⟨_, rfl, he⟩

/-- Collecting up to any size succeeds without decimals. -/
lemma exists_collectUpTo (size : ℕ) : Succeeds (collectUpTo size) := by
  induction size with
  | zero => exact fun e he => ⟨e, rfl, he⟩
  | succ size ih => exact exists_collectWith ih

/-! ### Cofactors that vanish -/

/-- A product with zero is folded to zero. -/
lemma foldConstants_join_zero {e : Expr} (he : e.isDecimalFree = true) :
    foldConstants (join .product e (integer 0)) = .ok (integer 0) := by
  obtain ⟨first, second, rest, hjoin, hterms⟩ := join_eq_nary .product e (integer 0)
  have hfree : ∀ t ∈ first :: second :: rest, t.isDecimalFree = true := by
    rw [hterms, List.forall_mem_append]
    exact ⟨(hereditary_isDecimalFree.terms .product e).2 he,
      (hereditary_isDecimalFree.terms .product (integer 0)).2 rfl⟩
  obtain ⟨es, hes, hesfree⟩ :=
    exists_forall₂_of_forall_and fun t ht => exists_foldConstants (hfree t ht)
  have hzero : integer 0 ∈ es := by
    have hmem : integer 0 ∈ first :: second :: rest := by
      rw [hterms]
      exact List.mem_append_right _ List.mem_cons_self
    obtain ⟨z, hz, hfold⟩ := exists_mem_of_forall₂ hes hmem
    exact Except.ok.inj hfold ▸ hz
  rw [hjoin, foldConstants_nary_eq_ok_iff]
  refine ⟨es, hes, ?_⟩
  rw [foldTerms_eq .product hesfree, folded_eq_zero]
  exact mem_merged.2 ⟨integer 0, hzero, List.mem_cons_self⟩

/-- A factorization whose cofactor is collected to zero is recollected to the integer that its
remainder is folded to, which is zero if there is none. -/
lemma recollect_of_zero {F : Factorization} (hfactor : F.factor.isDecimalFree = true)
    (hcofactor : again F.cofactor = .ok (integer 0)) {remainder : Expr} {c : ℤ}
    (hremainder : again F.remainder = .ok remainder)
    (hc : remainder = empty ∧ c = 0 ∨
      remainder.isEmpty = false ∧ foldConstants remainder = .ok (integer c)) :
    recollect again F = .ok (integer c) := by
  refine recollect_eq_ok_iff.2 ⟨integer 0, remainder, hcofactor, hremainder, ?_⟩
  have hproduct := foldConstants_join_zero hfactor
  rw [Factorization.expr]
  rcases hc with ⟨rfl, rfl⟩ | ⟨hne, hfold⟩
  · rw [gather_join_empty]
    exact hproduct
  · rw [gather_eq_ofTerms .sum (by simp [isEmpty_join, hne])]
    refine foldConstants_nary_eq_ok_iff.2
      ⟨[integer 0, integer c], .cons hproduct (.cons hfold .nil), ?_⟩
    have hsum : foldTerms .sum [integer 0, integer c] = .ok (integer (0 + c)) := rfl
    rw [hsum, zero_add]

end TermAlgebra.Expr
