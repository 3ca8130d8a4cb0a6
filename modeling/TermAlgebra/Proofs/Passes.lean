import Mathlib.Tactic
import TermAlgebra.Proofs.Rewriting

/-!
# Passes as rewritings

Every pass of simplification rewrites its argument.

For each pass there is first a lemma that says what its success comes to (for instance
`foldConstants_nary_eq_ok_iff`), and then one that makes a rewriting of it.
-/

namespace TermAlgebra.Expr

/-! ### Rewriting all terms -/

/-- The terms of a node can be rewritten all at once. -/
lemma Rewrites.ofTerms (op : AssocOp) {es es' : List Expr} (h : List.Forall₂ Rewrites es es') :
    Rewrites (ofTerms op es) (ofTerms op es') := by
  suffices hbefore : ∀ before,
      Rewrites (Expr.ofTerms op (before ++ es)) (Expr.ofTerms op (before ++ es')) from hbefore []
  induction h with
  | nil => exact fun before => .refl _
  | @cons t t' es es' ht _ ih =>
    intro before
    have hrest := ih (before ++ [t'])
    rw [List.append_assoc, List.append_assoc, List.singleton_append, List.singleton_append] at hrest
    exact (Rewrites.term op before es ht).trans hrest

/-- Terms that are mapped to rewritten ones are rewritten. -/
lemma Rewrites.forall₂_map {f : Expr → Expr} {es : List Expr} (h : ∀ e ∈ es, Rewrites e (f e)) :
    List.Forall₂ Rewrites es (es.map f) := by
  rw [List.forall₂_map_right_iff, List.forall₂_same]
  exact h

/-- Joining two operands is a rewriting of their node. -/
lemma Rewrites.join (op : AssocOp) (a b : Expr) : Rewrites (nary op a b []) (join op a b) := by
  rw [join_eq_ofTerms_merged]
  exact .merge op (List.cons_ne_nil a [b])

/-- Merging and gathering terms is a rewriting of their node. -/
lemma Rewrites.gatherMerged (op : AssocOp) {es : List Expr} (hne : es ≠ []) :
    Rewrites (Expr.ofTerms op es) (Expr.gather op (merged op es)) :=
  (Rewrites.merge op hne).trans (.gather op (merged_ne_nil op hne))

/-! ### Flattening and expanding -/

/-- Flattening is a rewriting. -/
lemma rewrites_flatten (e : Expr) : Rewrites e e.flatten := by
  induction e using Expr.induction with
  | negation e ih => exact .negation ih
  | nary op a b rest ih =>
    have hterms : List.Forall₂ Rewrites (a :: b :: rest)
        (flatten a :: flatten b :: flattenAll rest) := by
      rw [flattenAll_eq_map]
      exact Rewrites.forall₂_map ih
    exact (Rewrites.ofTerms op hterms).trans (.gatherMerged op (List.cons_ne_nil _ _))
  | division l r hl hr => exact .division hl hr
  | parentheses e ih => exact (Rewrites.unwrap e).trans ih
  | _ => exact .refl _

/-- Expanding is a rewriting. -/
lemma rewrites_expand (e : Expr) : Rewrites e e.expand := by
  induction e using Expr.induction with
  | negation e ih =>
    refine (Rewrites.negation ih).trans ((Rewrites.sign e.expand).trans ?_)
    have hne : [integer (-1), e.expand] ≠ [] := List.cons_ne_nil _ _
    exact .distribute hne
  | nary op a b rest ih =>
    have hterms : List.Forall₂ Rewrites (a :: b :: rest) ((a :: b :: rest).map expand) :=
      Rewrites.forall₂_map ih
    cases op with
    | sum =>
      rw [expand_sum]
      exact (Rewrites.ofTerms .sum hterms).trans (.gatherMerged .sum (List.cons_ne_nil _ _))
    | product =>
      rw [expand_product]
      exact (Rewrites.ofTerms .product hterms).trans (.distribute (List.cons_ne_nil _ _))
  | division l r hl hr => exact .division hl hr
  | parentheses e ih => exact (Rewrites.unwrap e).trans ih
  | _ => exact .refl _

/-! ### Folding constants -/

/-- Folding a negation folds the product with minus one. -/
lemma foldConstants_negation_eq_ok_iff {e r : Expr} :
    foldConstants (negation e) = .ok r ↔
      ∃ e', foldConstants e = .ok e' ∧ foldTerms .product [integer (-1), e'] = .ok r := by
  rw [foldConstants, Outcome.bind_eq_ok_iff]

/-- Folding a node folds its folded terms. -/
lemma foldConstants_nary_eq_ok_iff {op : AssocOp} {a b r : Expr} {rest : List Expr} :
    foldConstants (nary op a b rest) = .ok r ↔
      ∃ es, List.Forall₂ (fun e e' => foldConstants e = .ok e') (a :: b :: rest) es ∧
        foldTerms op es = .ok r := by
  rw [exists_forall₂_cons_cons]
  simp only [foldConstants, Outcome.bind_eq_ok_iff, foldConstantsAll_eq_mapM,
    Outcome.mapM_eq_ok_iff]

/-- Folding a division reduces the quotient of its folded sides. -/
lemma foldConstants_division_eq_ok_iff {l r q : Expr} :
    foldConstants (division l r) = .ok q ↔
      ∃ l' r', foldConstants l = .ok l' ∧ foldConstants r = .ok r' ∧
        reduceQuotient l' r' = .ok q := by
  simp only [foldConstants, Outcome.bind_eq_ok_iff]
  constructor
  · rintro ⟨l', hl, r', hr, hq⟩
    exact ⟨l', r', hl, hr, hq⟩
  · rintro ⟨l', r', hl, hr, hq⟩
    exact ⟨l', hl, r', hr, hq⟩

/-- Folding constants is a rewriting. -/
lemma rewrites_of_foldConstants {e r : Expr} (h : foldConstants e = .ok r) : Rewrites e r := by
  induction e using Expr.induction generalizing r with
  | negation e ih =>
    obtain ⟨e', he, hr⟩ := foldConstants_negation_eq_ok_iff.1 h
    refine (Rewrites.negation (ih he)).trans ((Rewrites.sign e').trans ?_)
    have hne : [integer (-1), e'] ≠ [] := List.cons_ne_nil _ _
    exact .fold .product hne hr
  | nary op a b rest ih =>
    obtain ⟨es, hes, hr⟩ := foldConstants_nary_eq_ok_iff.1 h
    have hterms : List.Forall₂ Rewrites (a :: b :: rest) es :=
      forall₂_of_forall (fun t ht e' => ih t ht) hes
    have hne : es ≠ [] := ne_nil_of_forall₂ hes (List.cons_ne_nil _ _)
    exact (Rewrites.ofTerms op hterms).trans (.fold op hne hr)
  | division l r hl hr =>
    obtain ⟨l', r', hl', hr', hq⟩ := foldConstants_division_eq_ok_iff.1 h
    exact (Rewrites.division (hl hl') (hr hr')).trans (.reduce hq)
  | parentheses e ih => exact (Rewrites.unwrap e).trans (ih h)
  | _ =>
    obtain rfl := Except.ok.inj h
    exact .refl _

/-! ### Collecting common factors -/

/-- Choosing one of two again and again leads to one of all. -/
lemma foldl_mem {f : Expr → Expr → Expr} (hf : ∀ best e, f best e = best ∨ f best e = e)
    (first : Expr) (others : List Expr) : others.foldl f first ∈ first :: others := by
  induction others generalizing first with
  | nil => exact List.mem_cons_self
  | cons e others ih =>
    rw [List.foldl_cons]
    rcases List.mem_cons.1 (ih (f first e)) with h | h
    · rw [h]
      rcases hf first e with hbest | he
      · rw [hbest]
        exact List.mem_cons_self
      · rw [he]
        exact List.mem_cons_of_mem first List.mem_cons_self
    · exact List.mem_cons_of_mem first (List.mem_cons_of_mem e h)

/-- The simplest expression is one of those it is chosen from. -/
lemma simplestOf_mem (first : Expr) (others : List Expr) :
    simplestOf first others ∈ first :: others := by
  refine foldl_mem (fun best e => ?_) first others
  split
  · exact Or.inr rfl
  · exact Or.inl rfl

/-- The simpler one of two trees is the second one only if this is strictly simpler. -/
lemma simplestOf_singleton (first e : Expr) :
    simplestOf first [e] = if e.complexity < first.complexity then e else first := rfl

/-- Collecting a node of an operation collects its terms first. -/
lemma collectAllWith_eq_mapM (again : Expr → Except Fault Expr) (es : List Expr) :
    collectAllWith again es = es.mapM (collectWith again) := by
  induction es with
  | nil => rfl
  | cons e es ih => rw [collectAllWith, List.mapM_cons, ih]

/-- Collecting a sum chooses from its collected terms and its factorizations. -/
lemma collectWith_sum_eq_ok_iff {again : Expr → Except Fault Expr} {a b r : Expr}
    {rest : List Expr} :
    collectWith again (sum a b rest) = .ok r ↔
      ∃ es, List.Forall₂ (fun e e' => collectWith again e = .ok e') (a :: b :: rest) es ∧
        collectSum again (a :: b :: rest) es = .ok r := by
  rw [exists_forall₂_cons_cons]
  simp only [collectWith, Outcome.bind_eq_ok_iff, collectAllWith_eq_mapM,
    Outcome.mapM_eq_ok_iff]

/-- Collecting a product gathers its collected terms. -/
lemma collectWith_product_eq_ok_iff {again : Expr → Except Fault Expr} {a b r : Expr}
    {rest : List Expr} :
    collectWith again (product a b rest) = .ok r ↔
      ∃ es, List.Forall₂ (fun e e' => collectWith again e = .ok e') (a :: b :: rest) es ∧
        gather .product (merged .product es) = r := by
  rw [exists_forall₂_cons_cons]
  simp only [collectWith, Outcome.bind_eq_ok_iff, collectAllWith_eq_mapM,
    Outcome.mapM_eq_ok_iff, Outcome.pure_eq_ok_iff]

/-- The factorizations that are tried on a sum of terms: those whose cofactor is a sum. -/
def usefulFactorizations (terms : List Expr) : List Factorization :=
  (factorizationsOf terms).filter fun F => F.cofactor.isNary .sum

/-- The simplest form of a sum is chosen from its folded terms and its recollected
factorizations. -/
lemma collectSum_eq (again : Expr → Except Fault Expr) (terms collected : List Expr) :
    collectSum again terms collected = do
      let plain ← foldConstants (gather .sum collected)
      return simplestOf plain (← (usefulFactorizations terms).mapM (recollect again)) := rfl

/-- The candidates for a sum are its folded terms and its recollected factorizations. -/
lemma collectSum_eq_ok_iff {again : Expr → Except Fault Expr} {terms collected : List Expr}
    {r : Expr} :
    collectSum again terms collected = .ok r ↔
      ∃ plain candidates, foldConstants (gather .sum collected) = .ok plain ∧
        List.Forall₂ (fun F c => recollect again F = .ok c)
          (usefulFactorizations terms) candidates ∧
        simplestOf plain candidates = r := by
  rw [collectSum_eq]
  simp only [Outcome.bind_eq_ok_iff, Outcome.mapM_eq_ok_iff, Outcome.pure_eq_ok_iff]
  constructor
  · rintro ⟨plain, hplain, candidates, hcandidates, hr⟩
    exact ⟨plain, candidates, hplain, hcandidates, hr⟩
  · rintro ⟨plain, candidates, hplain, hcandidates, hr⟩
    exact ⟨plain, hplain, candidates, hcandidates, hr⟩

/-- Recollecting a factorization folds it with its collected parts. -/
lemma recollect_eq_ok_iff {again : Expr → Except Fault Expr} {F : Factorization} {r : Expr} :
    recollect again F = .ok r ↔
      ∃ cofactor remainder, again F.cofactor = .ok cofactor ∧ again F.remainder = .ok remainder ∧
        foldConstants (Factorization.expr ⟨F.factor, cofactor, remainder⟩) = .ok r := by
  unfold recollect
  simp only [Outcome.bind_eq_ok_iff]
  constructor
  · rintro ⟨cofactor, hcofactor, remainder, hremainder, hr⟩
    exact ⟨cofactor, remainder, hcofactor, hremainder, hr⟩
  · rintro ⟨cofactor, remainder, hcofactor, hremainder, hr⟩
    exact ⟨cofactor, hcofactor, remainder, hremainder, hr⟩

/-- A node is never empty. -/
lemma isEmpty_join (op : AssocOp) (a b : Expr) : (join op a b).isEmpty = false := by
  obtain ⟨first, second, rest, h, -⟩ := join_eq_nary op a b
  rw [h]
  rfl

/-- A product that is joined with an empty remainder stays alone. -/
lemma gather_join_empty (a b : Expr) :
    gather .sum [join .product a b, empty] = join .product a b := by
  rw [gather, List.filter_cons_of_pos (by simp [isEmpty_join]),
    List.filter_cons_of_neg (by simp [isEmpty]), List.filter_nil]
  rfl

/-- The sum that a factorization with collected parts stands for is a rewriting of the unmerged
one. -/
lemma rewrites_recollected {F : Factorization} {cofactor remainder : Expr}
    (hcofactor : Rewrites F.cofactor cofactor) (hremainder : Rewrites F.remainder remainder)
    (hempty : F.remainder = empty → remainder = empty) :
    Rewrites F.unmerged (Factorization.expr ⟨F.factor, cofactor, remainder⟩) := by
  have hproduct : Rewrites (product F.factor F.cofactor []) (join .product F.factor cofactor) :=
    (Rewrites.ofTerms .product (.cons (.refl F.factor)
      (.cons hcofactor .nil))).trans (.join .product F.factor cofactor)
  unfold Factorization.unmerged Factorization.expr
  by_cases hrem : F.remainder.isEmpty = true
  · rw [if_pos hrem, hempty (isEmpty_iff.1 hrem), gather_join_empty]
    exact hproduct
  · rw [if_neg hrem]
    refine (Rewrites.ofTerms .sum (.cons hproduct (.cons hremainder .nil))).trans ?_
    exact .gather .sum (List.cons_ne_nil _ _)

/-- A recollected factorization is folded from a rewriting of the unmerged one. -/
lemma exists_rewrites_of_recollect {again : Expr → Except Fault Expr}
    (hagain : ∀ e r, again e = .ok r → Rewrites e r) (hempty : again empty = .ok empty)
    {F : Factorization} {r : Expr} (h : recollect again F = .ok r) :
    ∃ e, Rewrites F.unmerged e ∧ foldConstants e = .ok r := by
  obtain ⟨cofactor, remainder, hcofactor, hremainder, hr⟩ := recollect_eq_ok_iff.1 h
  refine ⟨_, rewrites_recollected (hagain _ _ hcofactor) (hagain _ _ hremainder) ?_, hr⟩
  intro hrem
  rw [hrem, hempty, Except.ok.injEq] at hremainder
  exact hremainder.symm

/-- A collected sum is folded from a rewriting of the sum if collecting its parts is a
rewriting. -/
lemma exists_rewrites_of_collectSum {again : Expr → Except Fault Expr}
    (hagain : ∀ e r, again e = .ok r → Rewrites e r) (hempty : again empty = .ok empty)
    {terms collected : List Expr} (hne : terms ≠ [])
    (hterms : List.Forall₂ Rewrites terms collected) {r : Expr}
    (h : collectSum again terms collected = .ok r) :
    ∃ e, Rewrites (Expr.ofTerms .sum terms) e ∧ foldConstants e = .ok r := by
  obtain ⟨plain, candidates, hplain, hcandidates, rfl⟩ := collectSum_eq_ok_iff.1 h
  rcases List.mem_cons.1 (simplestOf_mem plain candidates) with hmem | hmem
  · rw [hmem]
    have hcollected : collected ≠ [] := ne_nil_of_forall₂ hterms hne
    exact ⟨_, (Rewrites.ofTerms .sum hterms).trans (.gather .sum hcollected), hplain⟩
  · obtain ⟨F, hF, hrecollect⟩ := exists_mem_of_forall₂ hcandidates.flip hmem
    obtain ⟨e, he, hfold⟩ := exists_rewrites_of_recollect hagain hempty hrecollect
    exact ⟨e, (Rewrites.factor hne (List.mem_filter.1 hF).1).trans he, hfold⟩

/-- Collecting is a rewriting if collecting the parts of factored sums is. -/
lemma rewrites_of_collectWith {again : Expr → Except Fault Expr}
    (hagain : ∀ e r, again e = .ok r → Rewrites e r) (hempty : again empty = .ok empty)
    {e r : Expr} (h : collectWith again e = .ok r) : Rewrites e r := by
  induction e using Expr.induction generalizing r with
  | negation e ih =>
    obtain ⟨e', he, rfl⟩ := Outcome.map_eq_ok_iff.1 h
    exact .negation (ih he)
  | nary op a b rest ih =>
    have hall : ∀ e ∈ a :: b :: rest, ∀ e', collectWith again e = .ok e' → Rewrites e e' :=
      fun e he e' => ih e he
    cases op with
    | sum =>
      obtain ⟨es, hes, hr⟩ := collectWith_sum_eq_ok_iff.1 h
      obtain ⟨e, he, hfold⟩ := exists_rewrites_of_collectSum hagain hempty (List.cons_ne_nil _ _)
        (forall₂_of_forall hall hes) hr
      exact he.trans (rewrites_of_foldConstants hfold)
    | product =>
      obtain ⟨es, hes, rfl⟩ := collectWith_product_eq_ok_iff.1 h
      have hne : es ≠ [] := ne_nil_of_forall₂ hes (List.cons_ne_nil _ _)
      exact (Rewrites.ofTerms .product (forall₂_of_forall hall hes)).trans
        (.gatherMerged .product hne)
  | division l r hl hr =>
    obtain ⟨l', hl', hq⟩ := Outcome.bind_eq_ok_iff.1 h
    obtain ⟨r', hr', hq⟩ := Outcome.bind_eq_ok_iff.1 hq
    rw [← Outcome.pure_eq_ok_iff.1 hq]
    exact .division (hl hl') (hr hr')
  | parentheses e ih => exact (Rewrites.unwrap e).trans (ih h)
  | _ =>
    obtain rfl := Except.ok.inj h
    exact .refl _

/-- The empty expression is collected as it is. -/
lemma collectUpTo_empty (size : ℕ) : collectUpTo size empty = .ok empty := by
  cases size <;> rfl

/-- Collecting up to a size is a rewriting. -/
lemma rewrites_of_collectUpTo {size : ℕ} {e r : Expr} (h : collectUpTo size e = .ok r) :
    Rewrites e r := by
  induction size generalizing e r with
  | zero =>
    obtain rfl := Except.ok.inj h
    exact .refl e
  | succ size ih =>
    exact rewrites_of_collectWith (fun _ _ => ih) (collectUpTo_empty size) h

/-- Collecting is a rewriting. -/
lemma rewrites_of_collect {e r : Expr} (h : collect e = .ok r) : Rewrites e r :=
  rewrites_of_collectUpTo h

end TermAlgebra.Expr
