import Mathlib.Algebra.MvPolynomial.Basic
import Mathlib.Data.Finsupp.Multiset
import Mathlib.Tactic
import TermAlgebra.Proofs.NormalForm
import TermAlgebra.Proofs.Monomials

/-!
# Outlines

Which factors the terms of an expanded tree have, said without expanding it.

The outline of a tree (`Expr.outline`) is the polynomial that is left of it when every constant
counts one.  Its variables are the names and the divisions of the tree, with their sides expanded.
Each of its monomials stands for the factors of a term of the expanded tree, and its coefficient
tells how many terms have just these factors.  Since all coefficients are natural numbers, nothing
in it cancels: a monomial with coefficient two or more somewhere in a tree leads to one of the whole
tree (`Repeated.of_outerParts`), and two terms of a folded sum with the same factors have such a
monomial between them (`Folded.repeated_of_like`).
-/

namespace TermAlgebra.Expr

open MvPolynomial

/-! ### Factors of a term -/

/-- How often each factor of a term occurs in it. -/
noncomputable def exponents (t : Expr) : Expr →₀ ℕ :=
  (t.factors.map fun f => Finsupp.single f 1).sum

/-- The monomial of the factors of a term. -/
noncomputable def imprint (t : Expr) : MvPolynomial Expr ℕ :=
  (t.factors.map X).prod

/-- The monomial of a term has the exponents of its factors. -/
lemma imprint_eq_monomial (t : Expr) : t.imprint = monomial t.exponents 1 := by
  unfold imprint exponents
  induction t.factors with
  | nil => rfl
  | cons f fs ih =>
    rw [List.map_cons, List.prod_cons, ih, List.map_cons, List.sum_cons, X, monomial_mul, one_mul]

open Classical in
/-- The exponents of a term are those of the multiset of its factors. -/
lemma exponents_eq_toFinsupp (t : Expr) :
    t.exponents = Multiset.toFinsupp (t.factors : Multiset Expr) := by
  unfold exponents
  induction t.factors with
  | nil => simp
  | cons f fs ih =>
    rw [List.map_cons, List.sum_cons, ih, ← Multiset.cons_coe, ← Multiset.singleton_add,
      Multiset.toFinsupp_add, Multiset.toFinsupp_singleton]

/-- Terms have the same exponents exactly if they have the same factors up to their order. -/
lemma exponents_eq_iff {t u : Expr} : t.exponents = u.exponents ↔ t.factors.Perm u.factors := by
  classical
  rw [exponents_eq_toFinsupp, exponents_eq_toFinsupp, Multiset.toFinsupp.injective.eq_iff,
    Multiset.coe_eq_coe]

/-- A term without exponents has no factors. -/
lemma exponents_eq_zero_iff {t : Expr} : t.exponents = 0 ↔ t.factors = [] := by
  have hone : (integer 1).exponents = 0 := rfl
  rw [← hone, exponents_eq_iff]
  exact List.perm_nil

/-- A term that has a factor has the exponents of what is taken out with it and those of its
quotient. -/
lemma exponents_of_mem_holders {ts : List Expr} (hts : ∀ t ∈ ts, t.isDecimalFree = true)
    (f : Expr) {t : Expr} (ht : t ∈ holders f ts) :
    t.exponents = (factorizationBy f ts).factor.exponents +
      (t.divideOut (companionPowers f ts)).exponents := by
  have hperm := factors_perm_of_mem_holders hts f ht
  rw [exponents, exponents, exponents, factors_factor, ← List.sum_append, ← List.map_append]
  exact (hperm.map _).sum_eq

/-- Gathering factors multiplies their monomials. -/
lemma imprint_gather (es : List Expr) :
    (gather .product (merged .product es)).imprint = (es.map imprint).prod := by
  unfold imprint
  rw [factors_gather, merged]
  induction es with
  | nil => rfl
  | cons e es ih =>
    rw [List.flatMap_cons, factorsAll_append, factorsAll_terms, List.map_append, List.prod_append,
      ih, List.map_cons, List.prod_cons]

/-! ### Outlines -/

mutual

/-- The polynomial that is left of an expression when every constant counts one, in its names and in
its divisions with their sides expanded. -/
noncomputable def outline : Expr → MvPolynomial Expr ℕ
  | empty => 1
  | integer _ => 1
  | decimal _ => 1
  | var s => X (var s)
  | negation e => outline e
  | nary op a b rest => op.total (outline a :: outline b :: outlines rest)
  | division l r => X (division (expand l) (expand r))
  | parentheses e => outline e

/-- The outlines of all the expressions. -/
noncomputable def outlines : List Expr → List (MvPolynomial Expr ℕ)
  | [] => []
  | e :: es => outline e :: outlines es

end

/-- The outlines are taken item by item. -/
lemma outlines_eq_map (es : List Expr) : outlines es = es.map outline := by
  induction es with
  | nil => rfl
  | cons e es ih => rw [outlines, ih, List.map_cons]

/-- The outline of a node is the result of the operation on those of its terms. -/
lemma outline_nary (op : AssocOp) (a b : Expr) (rest : List Expr) :
    (nary op a b rest).outline = op.total ((a :: b :: rest).map outline) := by
  rw [outline, outlines_eq_map, List.map_cons, List.map_cons]

/-- The outline of an expression is the result of an operation on those of its terms. -/
lemma total_outline (op : AssocOp) (e : Expr) :
    op.total ((e.terms op).map outline) = e.outline := by
  rcases eq_nary_or_not_isNary op e with ⟨a, b, rest, rfl⟩ | hnot
  · rw [terms_nary, outline_nary]
  · rw [terms_of_not_isNary hnot, List.map_singleton, AssocOp.total_singleton]

/-- The value of an outline where all variables are one is not zero. -/
lemma eval_outline_pos (e : Expr) : 0 < eval (fun _ => 1) e.outline := by
  induction e using Expr.induction with
  | negation e ih => exact ih
  | parentheses e ih => exact ih
  | nary op a b rest ih =>
    rw [outline_nary, op.map_total (eval fun _ => 1), List.map_map]
    cases op with
    | sum =>
      have ha := ih a List.mem_cons_self
      rw [AssocOp.total_sum, List.map_cons, List.sum_cons]
      exact Nat.lt_of_lt_of_le ha (Nat.le_add_right _ _)
    | product => exact List.prod_pos (List.forall_mem_map.2 ih)
  | _ => simp [outline]

/-- No outline is zero. -/
lemma outline_ne_zero (e : Expr) : e.outline ≠ 0 := by
  intro hzero
  have hpos := eval_outline_pos e
  rw [hzero, map_zero] at hpos
  exact absurd hpos (Nat.lt_irrefl 0)

/-- The outline of a term is the product of those of its factors. -/
lemma outline_eq_prod_factors {t : Expr} (ht : t.isExact = true) :
    t.outline = (t.factors.map outline).prod := by
  induction t using inductionOnFactors with
  | negation e ih => exact ih ((hereditary_isExact.negation e).1 ht)
  | product a b rest ih =>
    rw [hereditary_isExact.nary] at ht
    have hterms : (a :: b :: rest).map outline =
        (a :: b :: rest).map fun t => (t.factors.map outline).prod :=
      List.map_congr_left fun t htt => ih t htt (ht t htt)
    rw [outline_nary, AssocOp.total_product, hterms, factors_product, factorsAll_eq_flatMap,
      List.map_flatMap, List.flatMap_def, List.prod_flatten, List.map_map]
    rfl
  | whole e he =>
    rw [factors_of_isWhole he]
    cases e with
    | empty => exact Bool.noConfusion ht
    | decimal d => exact Bool.noConfusion ht
    | integer n => rfl
    | _ => simp [isConstant, isEmpty]

/-- The outline of a monomial is the monomial of its factors. -/
lemma outline_of_isMonomial {t : Expr} (ht : t.isMonomial = true) : t.outline = t.imprint := by
  rw [outline_eq_prod_factors (isExact_of_isMonomial ht), imprint]
  refine congrArg _ (List.map_congr_left fun f hf => ?_)
  obtain ⟨-, s, rfl⟩ := (mem_factors_of_isMonomial ht).1 hf
  rw [outline]

/-- The outline of a sum of monomials is the sum of the monomials of its terms. -/
lemma sum_imprint_terms {e : Expr} (he : e.isMonomialSum = true) :
    ((e.terms .sum).map imprint).sum = e.outline := by
  have himprint : (e.terms .sum).map imprint = (e.terms .sum).map outline :=
    List.map_congr_left fun t ht => (outline_of_isMonomial (isMonomialSum_iff.1 he t ht)).symm
  rw [himprint, ← total_outline .sum e, AssocOp.total_sum]

/-! ### Monomials that come up repeatedly -/

/-- Whether some monomial other than the constant one has at least a given coefficient. -/
def Repeated (k : ℕ) (p : MvPolynomial Expr ℕ) : Prop :=
  ∃ m, m ≠ 0 ∧ k ≤ p.coeff m

/-- Coefficients of products are no less than the products of coefficients. -/
lemma mul_coeff_le (p q : MvPolynomial Expr ℕ) (m n : Expr →₀ ℕ) :
    p.coeff m * q.coeff n ≤ (p * q).coeff (m + n) := by
  classical
  have hmem : (m, n) ∈ Finset.HasAntidiagonal.antidiagonal (m + n) :=
    Finset.HasAntidiagonal.mem_antidiagonal.2 rfl
  rw [coeff_mul]
  exact Finset.single_le_sum (f := fun x => p.coeff x.1 * q.coeff x.2)
    (fun _ _ => Nat.zero_le _) hmem

/-- A polynomial with a repeated monomial may be multiplied. -/
lemma Repeated.mul {k : ℕ} {p q : MvPolynomial Expr ℕ} (hp : Repeated k p) (hq : q ≠ 0) :
    Repeated k (p * q) := by
  obtain ⟨m, hm, hk⟩ := hp
  obtain ⟨n, hn⟩ := ne_zero_iff.1 hq
  refine ⟨m + n, fun hzero => hm (add_eq_zero.1 hzero).1, ?_⟩
  calc k ≤ p.coeff m := hk
    _ ≤ p.coeff m * q.coeff n := Nat.le_mul_of_pos_right _ (Nat.pos_of_ne_zero hn)
    _ ≤ (p * q).coeff (m + n) := mul_coeff_le p q m n

/-- A polynomial with a repeated monomial may be added to. -/
lemma Repeated.add {k : ℕ} {p : MvPolynomial Expr ℕ} (hp : Repeated k p)
    (q : MvPolynomial Expr ℕ) : Repeated k (p + q) := by
  obtain ⟨m, hm, hk⟩ := hp
  refine ⟨m, hm, hk.trans ?_⟩
  rw [coeff_add]
  exact Nat.le_add_right _ _

/-- A monomial that is repeated in a term of a node is repeated in the node. -/
lemma Repeated.nary {k : ℕ} {op : AssocOp} {a b t : Expr} {rest : List Expr}
    (ht : t ∈ a :: b :: rest) (h : Repeated k t.outline) :
    Repeated k (nary op a b rest).outline := by
  obtain ⟨before, after, hsplit⟩ := List.append_of_mem ht
  have hperm : (a :: b :: rest).Perm (t :: (before ++ after)) := hsplit ▸ List.perm_middle
  rw [outline_nary, op.total_perm (hperm.map outline), List.map_cons]
  cases op with
  | sum =>
    rw [AssocOp.total_sum, List.sum_cons]
    exact h.add _
  | product =>
    rw [AssocOp.total_product, List.prod_cons]
    refine h.mul (List.prod_ne_zero fun hzero => ?_)
    obtain ⟨u, -, hu⟩ := List.mem_map.1 hzero
    exact outline_ne_zero u hu

/-- Some monomial of a folded tree has a factor, unless the tree is an integer. -/
lemma Folded.repeated_one {e : Expr} (h : Folded e) (hconstant : e.isConstant = false) :
    Repeated 1 e.outline := by
  have hX : ∀ f : Expr, Repeated 1 (X f : MvPolynomial Expr ℕ) := by
    intro f
    classical
    exact ⟨Finsupp.single f 1, by simp, by simp [coeff_X]⟩
  induction h with
  | integer n => exact Bool.noConfusion hconstant
  | var s => exact hX _
  | @nary op a b rest _ _ htidy ih =>
    have hb : b ∈ a :: b :: rest := List.mem_cons_of_mem a List.mem_cons_self
    exact (ih b hb (htidy.2 b List.mem_cons_self)).nary hb
  | division _ _ _ _ _ => exact hX _

/-- Two terms of a folded sum with the same factors have a monomial in common, which is repeated in
the sum. -/
lemma Folded.repeated_of_like {a b t u : Expr} {rest : List Expr} (h : Folded (sum a b rest))
    (hsub : [t, u].Sublist (a :: b :: rest)) (hlike : t.factors.Perm u.factors) :
    Repeated 2 (sum a b rest).outline := by
  obtain _ | _ | ⟨_, hfolded, -, htidy⟩ | _ := h
  have hexact : ∀ e ∈ a :: b :: rest, e.isExact = true := fun e he => (hfolded e he).isExact
  have ht := hsub.subset List.mem_cons_self
  have hu := hsub.subset (List.mem_cons_of_mem t List.mem_cons_self)
  have hsame : t.outline = u.outline := by
    rw [outline_eq_prod_factors (hexact t ht), outline_eq_prod_factors (hexact u hu)]
    exact (hlike.map outline).prod_eq
  -- The later one of the two terms is no constant.
  have hconstant : u.isConstant = false := by
    refine htidy.2 u ?_
    cases hsub with
    | cons _ hsub => exact hsub.subset (List.mem_cons_of_mem t List.mem_cons_self)
    | cons_cons _ hsub => exact hsub.subset List.mem_cons_self
  obtain ⟨m, hm, hone⟩ := (hfolded u hu).repeated_one hconstant
  refine ⟨m, hm, ?_⟩
  have hle := (hsub.map fun e => e.outline.coeff m).sum_le_sum fun _ _ => Nat.zero_le _
  rw [outline_nary, AssocOp.total_sum, ← coeffAddMonoidHom_apply, map_list_sum, List.map_map]
  rw [List.map_cons, List.map_singleton, List.sum_cons, List.sum_singleton, hsame] at hle
  calc 2 ≤ u.outline.coeff m + u.outline.coeff m := Nat.add_le_add hone hone
    _ ≤ _ := hle

/-! ### Like terms -/

/-- Whether two terms of a list have the same factors, and have any. -/
def HasLike (ts : List Expr) : Prop :=
  ∃ t u, [t, u].Sublist ts ∧ t.factors.Perm u.factors ∧ t.factors ≠ []

open Classical in
/-- A coefficient in the sum of the monomials of terms tells how many terms have its exponents. -/
lemma coeff_sum_imprint (ts : List Expr) (m : Expr →₀ ℕ) :
    (ts.map imprint).sum.coeff m = ts.countP fun t => t.exponents = m := by
  induction ts with
  | nil => rfl
  | cons t ts ih =>
    rw [List.map_cons, List.sum_cons, coeff_add, ih, imprint_eq_monomial, coeff_monomial,
      List.countP_cons, Nat.add_comm]
    simp only [decide_eq_true_eq]

/-- Terms with a repeated monomial have like terms among them. -/
lemma Repeated.hasLike {ts : List Expr} (h : Repeated 2 (ts.map imprint).sum) : HasLike ts := by
  classical
  obtain ⟨m, hm, htwo⟩ := h
  rw [coeff_sum_imprint, List.countP_eq_length_filter] at htwo
  rcases hfilter : ts.filter fun t => t.exponents = m with _ | ⟨t, _ | ⟨u, rest⟩⟩
  · rw [hfilter] at htwo
    exact absurd htwo (Nat.not_succ_le_zero 1)
  · rw [hfilter] at htwo
    exact absurd htwo (Nat.not_succ_le_self 1)
  have hmem : ∀ v ∈ [t, u], v.exponents = m := by
    intro v hv
    have hv' : v ∈ ts.filter fun t => t.exponents = m :=
      hfilter ▸ (List.prefix_append [t, u] rest).subset hv
    simpa using (List.mem_filter.1 hv').2
  have ht := hmem t List.mem_cons_self
  have hu := hmem u (List.mem_cons_of_mem t List.mem_cons_self)
  refine ⟨t, u, ?_, exponents_eq_iff.1 (ht.trans hu.symm), fun hnil => hm ?_⟩
  · have hsub : [t, u].Sublist (ts.filter fun t => t.exponents = m) :=
      hfilter ▸ (List.prefix_append [t, u] rest).sublist
    exact hsub.trans List.filter_sublist
  · rw [← ht, exponents_eq_zero_iff.2 hnil]

/-! ### Outer parts -/

mutual

/-- The expression and all expressions within it that do not stand in a side of a division. -/
def outerParts : Expr → List Expr
  | negation e => negation e :: outerParts e
  | nary op a b rest =>
    nary op a b rest :: (outerParts a ++ (outerParts b ++ outerPartsAll rest))
  | parentheses e => parentheses e :: outerParts e
  | e => [e]

/-- The outer parts of all the expressions. -/
def outerPartsAll : List Expr → List Expr
  | [] => []
  | e :: es => outerParts e ++ outerPartsAll es

end

/-- The outer parts are listed item by item. -/
lemma outerPartsAll_eq_flatMap (es : List Expr) : outerPartsAll es = es.flatMap outerParts := by
  induction es with
  | nil => rfl
  | cons e es ih => rw [outerPartsAll, ih, List.flatMap_cons]

/-- An outer part of a node is the node itself or an outer part of one of its terms. -/
lemma mem_outerParts_nary {op : AssocOp} {a b t : Expr} {rest : List Expr} :
    t ∈ (nary op a b rest).outerParts ↔
      t = nary op a b rest ∨ ∃ u ∈ a :: b :: rest, t ∈ u.outerParts := by
  rw [outerParts, outerPartsAll_eq_flatMap, List.mem_cons, ← List.flatMap_cons,
    ← List.flatMap_cons, List.mem_flatMap]

/-- Outer parts are parts. -/
lemma mem_parts_of_mem_outerParts {e t : Expr} (ht : t ∈ e.outerParts) : t ∈ e.parts := by
  induction e using Expr.induction with
  | negation e ih =>
    rcases List.mem_cons.1 ht with rfl | ht
    · exact List.mem_cons_self
    · exact List.mem_cons_of_mem _ (ih ht)
  | nary op a b rest ih =>
    rw [mem_parts_nary]
    rcases mem_outerParts_nary.1 ht with rfl | ⟨u, hu, ht⟩
    · exact Or.inl rfl
    · exact Or.inr ⟨u, hu, ih u hu ht⟩
  | parentheses e ih =>
    rcases List.mem_cons.1 ht with rfl | ht
    · exact List.mem_cons_self
    · exact List.mem_cons_of_mem _ (ih ht)
  | division l r _ _ =>
    rw [List.mem_singleton.1 ht]
    exact List.mem_cons_self
  | _ => exact ht

/-- A monomial that is repeated in an outer part leads to one that is repeated in the tree. -/
lemma Repeated.of_outerParts {k : ℕ} {e t : Expr} (ht : t ∈ e.outerParts)
    (h : Repeated k t.outline) : Repeated k e.outline := by
  induction e using Expr.induction with
  | negation e ih =>
    rcases List.mem_cons.1 ht with rfl | ht
    · exact h
    · exact ih ht
  | nary op a b rest ih =>
    rcases mem_outerParts_nary.1 ht with rfl | ⟨u, hu, ht⟩
    · exact h
    · exact (ih u hu ht).nary hu
  | parentheses e ih =>
    rcases List.mem_cons.1 ht with rfl | ht
    · exact h
    · exact ih ht
  | _ =>
    rw [List.mem_singleton.1 ht] at h
    exact h

end TermAlgebra.Expr
