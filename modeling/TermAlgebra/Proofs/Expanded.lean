import Mathlib.Tactic
import TermAlgebra.Proofs.Interchange
import TermAlgebra.Proofs.Outline

/-!
# Expanded trees

What expanding makes of a folded tree, divisions included.

An expanded tree (`Expanded`) is a sum of products of integers, variables and divisions, where no
zero occurs among terms or factors and no division is folded to an integer, with sides that are
expanded trees themselves.  `PartOf` says what may be a term of its sums or a factor of its
products.

The terms are products of integers and other factors (`IsTerm`), and so are monomials with a zero in
them.  The folded form of such a product consists of the product of its integers and its folded
factors (`IsTerm.foldedForm_eq`), so it is an integer only if a zero is among them
(`IsTerm.foldedForm_eq_zero`) or there are no other factors (`IsTerm.isConstant_foldedForm`).

Folded trees are expanded to such trees, and the terms of these have the factors that the outline of
the tree tells (`Folded.expands`).
-/

namespace TermAlgebra.Expr

/-! ### Expanded trees -/

/-- Expanded trees: sums of products of integers, variables and divisions without zeros, in which no
division is folded to an integer. -/
inductive Expanded : Expr → Prop
  | integer (n : ℤ) : Expanded (integer n)
  | var (s : String) : Expanded (var s)
  | nary (op : AssocOp) {a b : Expr} {rest : List Expr} : (∀ t ∈ a :: b :: rest, Expanded t) →
      (∀ t ∈ a :: b :: rest, t.isNary .sum = false ∧ t.isNary op = false) →
      (∀ t ∈ a :: b :: rest, t ≠ Expr.integer 0) → Expanded (nary op a b rest)
  | division {l r : Expr} : Expanded l → Expanded r →
      integerQuotient? l.foldedForm r.foldedForm = none → Expanded (division l r)

/-- Expanded trees are exact. -/
lemma Expanded.isExact {e : Expr} (h : Expanded e) : e.isExact = true := by
  induction h with
  | integer n => rfl
  | var s => rfl
  | nary op _ _ _ ih =>
    rw [hereditary_isExact.nary]
    exact ih
  | division _ _ _ hl hr => exact isExact_division_iff.2 ⟨hl, hr⟩

/-- What may be a term of an operation in an expanded tree. -/
structure PartOf (op : AssocOp) (t : Expr) : Prop where
  expanded : Expanded t
  not_sum : t.isNary .sum = false
  not_nary : t.isNary op = false
  ne_zero : t ≠ integer 0

/-- Parts of expanded trees are exact. -/
lemma isExact_of_partOf {op : AssocOp} {ts : List Expr} (h : ∀ t ∈ ts, PartOf op t) :
    ∀ t ∈ ts, t.isExact = true :=
  fun t ht => (h t ht).expanded.isExact

/-- The terms of an expanded tree that is not zero are parts, and so are the factors of a term. -/
lemma Expanded.terms {e : Expr} (h : Expanded e) (hzero : e ≠ Expr.integer 0) {op : AssocOp}
    (hop : op = .sum ∨ e.isNary .sum = false) : ∀ t ∈ e.terms op, PartOf op t := by
  intro t ht
  rcases eq_nary_or_not_isNary op e with ⟨a, b, rest, rfl⟩ | hnot
  · obtain _ | _ | ⟨_, hexpanded, hnary, hne⟩ | _ := h
    rw [terms_nary] at ht
    exact ⟨hexpanded t ht, (hnary t ht).1, (hnary t ht).2, hne t ht⟩
  · rw [terms_of_not_isNary hnot, List.mem_singleton] at ht
    subst ht
    refine ⟨h, ?_, hnot, hzero⟩
    rcases hop with rfl | hsum
    · exact hnot
    · exact hsum

/-- The factors of a term are parts of products. -/
lemma PartOf.terms {t : Expr} (h : PartOf .sum t) : ∀ a ∈ t.terms .product, PartOf .product a :=
  h.expanded.terms h.ne_zero (Or.inr h.not_sum)

/-- Parts make up an expanded tree that is not zero. -/
lemma expanded_ofTerms {op : AssocOp} {ts : List Expr} (hne : ts ≠ [])
    (h : ∀ t ∈ ts, PartOf op t) : Expanded (ofTerms op ts) ∧ ofTerms op ts ≠ integer 0 := by
  match ts, hne with
  | [t], _ =>
    have ht := h t List.mem_cons_self
    exact ⟨ht.expanded, ht.ne_zero⟩
  | a :: b :: rest, _ =>
    refine ⟨.nary op (fun t ht => (h t ht).expanded) (fun t ht => ?_) fun t ht => (h t ht).ne_zero,
      fun hinteger => Expr.noConfusion hinteger⟩
    exact ⟨(h t ht).not_sum, (h t ht).not_nary⟩

/-- Factors make up a term. -/
lemma partOf_ofTerms {as : List Expr} (hne : as ≠ []) (h : ∀ a ∈ as, PartOf .product a) :
    PartOf .sum (ofTerms .product as) := by
  obtain ⟨hexpanded, hzero⟩ := expanded_ofTerms hne h
  have hsum : (ofTerms .product as).isNary .sum = false := by
    match as, hne with
    | [a], _ => exact (h a List.mem_cons_self).not_sum
    | a :: b :: rest, _ => rfl
  exact ⟨hexpanded, hsum, hsum, hzero⟩

/-! ### Products of factors -/

/-- Whether an expression is an integer, or taken as a whole and folded neither to an integer nor to
a node. -/
structure IsFactor (a : Expr) : Prop where
  isExact : a.isExact = true
  not_nary (op : AssocOp) : a.isNary op = false
  integer_or_factor : (∃ n, a = integer n) ∨ (a.isWhole = true ∧ a.factors = [a]) ∧
    a.foldedForm.isConstant = false ∧ ∀ op, a.foldedForm.isNary op = false

/-- Whether an expression is a product of integers and other such factors. -/
def IsTerm (t : Expr) : Prop :=
  ∀ a ∈ t.terms .product, IsFactor a

/-- Atoms are factors. -/
lemma isFactor_of_isAtom {a : Expr} (h : a.isAtom = true) : IsFactor a := by
  rcases isAtom_iff.1 h with ⟨n, rfl⟩ | ⟨s, rfl⟩
  · exact ⟨rfl, fun _ => rfl, Or.inl ⟨n, rfl⟩⟩
  · exact ⟨rfl, fun _ => rfl, Or.inr ⟨⟨rfl, rfl⟩, rfl, fun _ => rfl⟩⟩

/-- Monomials are products of factors. -/
lemma isTerm_of_isMonomial {t : Expr} (h : t.isMonomial = true) : IsTerm t :=
  fun a ha => isFactor_of_isAtom (isMonomial_iff.1 h a ha)

/-- What may be a factor of an expanded tree is one. -/
lemma PartOf.isFactor {a : Expr} (h : PartOf .product a) : IsFactor a := by
  obtain ⟨hexpanded, hsum, hproduct, -⟩ := h
  cases hexpanded with
  | integer n => exact isFactor_of_isAtom rfl
  | var s => exact isFactor_of_isAtom rfl
  | nary op _ _ _ =>
    cases op with
    | sum => exact Bool.noConfusion hsum
    | product => exact Bool.noConfusion hproduct
  | division hl hr hquotient =>
    have hform := foldedForm_division hl.isExact hr.isExact
    rw [hquotient, Option.getD_none] at hform
    refine ⟨isExact_division_iff.2 ⟨hl.isExact, hr.isExact⟩, fun _ => rfl, Or.inr ⟨⟨rfl, rfl⟩, ?_⟩⟩
    rw [hform]
    exact ⟨rfl, fun _ => rfl⟩

/-- What may be a term of an expanded tree is a product of factors. -/
lemma PartOf.isTerm {t : Expr} (h : PartOf .sum t) : IsTerm t :=
  fun a ha => (h.terms a ha).isFactor

/-- A product of factors is exact. -/
lemma IsTerm.isExact {t : Expr} (h : IsTerm t) : t.isExact = true :=
  (hereditary_isExact.terms .product t).1 fun a ha => (h a ha).isExact

/-- Products of factors are exact. -/
lemma isExact_of_isTerm {ts : List Expr} (h : ∀ t ∈ ts, IsTerm t) : ∀ t ∈ ts, t.isExact = true :=
  fun t ht => (h t ht).isExact

/-- A product of factors is no sum. -/
lemma IsTerm.not_sum {t : Expr} (h : IsTerm t) : t.isNary .sum = false := by
  rcases eq_nary_or_not_isNary .product t with ⟨a, b, rest, rfl⟩ | hnot
  · rfl
  · refine (h t ?_).not_nary .sum
    rw [terms_of_not_isNary hnot]
    exact List.mem_cons_self

/-- The factors of a product are integers, or taken as a whole. -/
lemma IsTerm.integer_or_whole {t : Expr} (h : IsTerm t) :
    ∀ a ∈ t.terms .product, (∃ n, a = integer n) ∨ a.isWhole = true ∧ a.factors = [a] :=
  fun a ha => (h a ha).integer_or_factor.imp_right And.left

/-- The factors of a product are factors that are folded neither to integers nor to nodes. -/
lemma IsTerm.of_mem_factors {t f : Expr} (h : IsTerm t) (hf : f ∈ t.factors) :
    IsFactor f ∧ f.foldedForm.isConstant = false ∧ ∀ op, f.foldedForm.isNary op = false := by
  rw [← factorsAll_terms, mem_factorsAll] at hf
  obtain ⟨a, ha, hf⟩ := hf
  rcases (h a ha).integer_or_factor with ⟨n, rfl⟩ | ⟨⟨-, hself⟩, hforms⟩
  · exact absurd hf List.not_mem_nil
  · rw [hself, List.mem_singleton] at hf
    exact hf ▸ ⟨h a ha, hforms⟩

/-- A quotient of a product of factors is the product of some of these, or one. -/
lemma IsTerm.divideOut_cases {t : Expr} (h : IsTerm t) (powers : Powers) :
    t.divideOut powers = integer 1 ∨ ∃ as, as ≠ [] ∧ (∀ a ∈ as, a ∈ t.terms .product) ∧
      t.divideOut powers = ofTerms .product as := by
  have hwhole : ∀ a ∈ t.terms .product, a.isWhole = true := by
    intro a ha
    rcases h.integer_or_whole a ha with ⟨n, rfl⟩ | ⟨hwhole, -⟩
    · rfl
    · exact hwhole
  obtain ⟨hleft, hcases⟩ := divideOut_of_isWhole h.isExact hwhole powers
  exact hcases.imp And.right fun ⟨hne, hproduct⟩ => ⟨_, hne, hleft, hproduct⟩

/-- Quotients of products of factors are such products. -/
lemma IsTerm.divideOut {t : Expr} (h : IsTerm t) (powers : Powers) :
    IsTerm (t.divideOut powers) := by
  rcases h.divideOut_cases powers with hone | ⟨as, hne, has, hproduct⟩
  · rw [hone]
    exact isTerm_of_isMonomial rfl
  · unfold IsTerm
    rw [hproduct, terms_ofTerms hne fun a ha => (h a (has a ha)).not_nary .product]
    exact fun a ha => h a (has a ha)

/-- Quotients of terms of an expanded tree may be terms of one. -/
lemma PartOf.divideOut {t : Expr} (h : PartOf .sum t) (powers : Powers) :
    PartOf .sum (t.divideOut powers) := by
  rcases h.isTerm.divideOut_cases powers with hone | ⟨as, hne, has, hproduct⟩
  · rw [hone]
    exact ⟨.integer 1, rfl, rfl, fun hzero => absurd (integer.inj hzero) one_ne_zero⟩
  · rw [hproduct]
    exact partOf_ofTerms hne fun a ha => h.terms a (has a ha)

/-! ### Folded terms -/

/-- Folding leaves of some factors the product of their integers and the folded factors. -/
lemma contents_foldedForm {as : List Expr} (h : ∀ a ∈ as, IsFactor a) :
    (as.map foldedForm).filterMap integer? = as.filterMap integer? ∧
      (as.map foldedForm).filter (fun e => !e.isConstant) = (factorsAll as).map foldedForm := by
  induction as with
  | nil => exact ⟨rfl, rfl⟩
  | cons a as ih =>
    obtain ⟨ha, has⟩ := List.forall_mem_cons.1 h
    obtain ⟨hints, hfactors⟩ := ih has
    rcases ha.integer_or_factor with ⟨n, rfl⟩ | ⟨⟨-, hself⟩, hconstant, -⟩
    · refine ⟨?_, hfactors⟩
      exact congrArg (n :: ·) hints
    · have hnone : a.foldedForm.integer? = none :=
        (isConstant_eq_false_iff (folded_foldedForm ha.isExact).isExact).1 hconstant
      have hnone' : a.integer? = none := by
        cases a with
        | integer n => exact absurd (congrArg List.length hself) Nat.zero_ne_one
        | _ => rfl
      rw [List.map_cons, List.filterMap_cons_none hnone, List.filterMap_cons_none hnone',
        List.filter_cons_of_pos (by rw [hconstant]; rfl), hfactors, factorsAll, hself]
      exact ⟨hints, rfl⟩

/-- The integers of a product come to zero exactly if zero is among them. -/
lemma signature_eq_zero_iff {t : Expr} : t.signature.1 = 0 ↔ integer 0 ∈ t.terms .product :=
  total_product_eq_zero_iff

/-- The integers of a term of an expanded tree do not come to zero. -/
lemma PartOf.signature_ne_zero {t : Expr} (h : PartOf .sum t) : t.signature.1 ≠ 0 := by
  rw [Ne, signature_eq_zero_iff]
  exact fun hmem => (h.terms _ hmem).ne_zero rfl

/-- Folding a product of factors folds these. -/
lemma IsTerm.foldedForm_eq_folded {t : Expr} (h : IsTerm t) :
    t.foldedForm =
      ofCondensed .product (condensed .product ((t.terms .product).map foldedForm)) := by
  have hexact : ∀ a ∈ t.terms .product, a.isExact = true := fun a ha => (h a ha).isExact
  have hnary : ∀ u ∈ (t.terms .product).map foldedForm, u.isNary .product = false := by
    rw [List.forall_mem_map]
    intro a ha
    rcases (h a ha).integer_or_factor with ⟨n, rfl⟩ | ⟨-, -, hnot⟩
    · rfl
    · exact hnot .product
  have hforms : ∀ u ∈ (t.terms .product).map foldedForm, u.isExact = true :=
    fun u hu => (folded_map_foldedForm hexact u hu).isExact
  have hne : (t.terms .product).map foldedForm ≠ [] := by simpa using terms_ne_nil .product t
  have hform := foldedForm_ofTerms .product (terms_ne_nil .product t) hexact
  rwa [ofTerms_terms, merged_eq_self hnary, folded_eq_ofCondensed hne hforms] at hform

/-- A product with a factor zero is folded to zero. -/
lemma IsTerm.foldedForm_eq_zero {t : Expr} (h : IsTerm t) (hzero : t.signature.1 = 0) :
    t.foldedForm = integer 0 := by
  rw [h.foldedForm_eq_folded, condensed, (contents_foldedForm h).1, if_pos ⟨rfl, hzero⟩]
  rfl

/-- The folded form of another product consists of the product of its integers and its folded
factors. -/
lemma IsTerm.foldedForm_eq {t : Expr} (h : IsTerm t) (hne : t.signature.1 ≠ 0) :
    t.foldedForm = ofCondensed .product (t.signature.1, t.factors.map foldedForm) := by
  obtain ⟨hints, hfactors⟩ := contents_foldedForm h
  rw [h.foldedForm_eq_folded, condensed, hints, hfactors, factorsAll_terms,
    if_neg fun hzero => hne hzero.2]
  rfl

/-- What an integer and other terms are folded to is a constant only if there are no others. -/
lemma isConstant_ofCondensed {op : AssocOp} {n : ℤ} {others : List Expr}
    (h : ∀ t ∈ others, t.isConstant = false) :
    (ofCondensed op (n, others)).isConstant = others.isEmpty := by
  unfold ofCondensed
  split
  · next hunit =>
    match others, hunit.1 with
    | [t], _ => exact h t List.mem_cons_self
    | a :: b :: rest, _ => rfl
  · cases others with
    | nil => rfl
    | cons t ts => rfl

/-- A product without a zero is folded to an integer exactly if it has no factors. -/
lemma IsTerm.isConstant_foldedForm {t : Expr} (h : IsTerm t) (hne : t.signature.1 ≠ 0) :
    t.foldedForm.isConstant = t.factors.isEmpty := by
  have hfactors : ∀ u ∈ t.factors.map foldedForm, u.isConstant = false :=
    List.forall_mem_map.2 fun f hf => (h.of_mem_factors hf).2.1
  rw [h.foldedForm_eq hne, isConstant_ofCondensed hfactors, List.isEmpty_map]

/-- A product of factors is not folded to a sum. -/
lemma IsTerm.not_sum_foldedForm {t : Expr} (h : IsTerm t) : t.foldedForm.isNary .sum = false := by
  by_cases hzero : t.signature.1 = 0
  · rw [h.foldedForm_eq_zero hzero]
    rfl
  have hfactors : ∀ u ∈ t.factors.map foldedForm, u.isNary .sum = false :=
    List.forall_mem_map.2 fun f hf => (h.of_mem_factors hf).2.2 .sum
  rw [h.foldedForm_eq hzero, ofCondensed]
  split
  · next hunit =>
    rcases hlist : t.factors.map foldedForm with _ | ⟨u, _ | ⟨v, rest⟩⟩
    · exact absurd hlist hunit.1
    · exact hfactors u (hlist ▸ List.mem_cons_self)
    · rfl
  · cases t.factors.map foldedForm with
    | nil => rfl
    | cons u us => rfl

/-- The folded form of a sum of products of factors consists of the sum of its integers and the
other terms. -/
lemma foldedForm_sum_of_isTerm {ts : List Expr} (hne : ts ≠ []) (h : ∀ t ∈ ts, IsTerm t) :
    (ofTerms .sum ts).foldedForm = folded .sum (ts.map foldedForm) := by
  rw [foldedForm_ofTerms .sum hne (isExact_of_isTerm h), merged_eq_self]
  exact List.forall_mem_map.2 fun t ht => (h t ht).not_sum_foldedForm

/-- The terms of an expanded tree have no factors if it is folded to an integer. -/
lemma Expanded.factors_eq_nil {e : Expr} (h : Expanded e)
    (hconstant : e.foldedForm.isConstant = true) : ∀ t ∈ e.terms .sum, t.factors = [] := by
  by_cases hzero : e = Expr.integer 0
  · subst hzero
    intro t ht
    rw [List.mem_singleton.1 ht]
    rfl
  · have hparts := h.terms hzero (Or.inl rfl)
    have hforms : ∀ t ∈ (e.terms .sum).map foldedForm, t.isExact = true :=
      fun t ht => (folded_map_foldedForm (isExact_of_partOf hparts) t ht).isExact
    have hne : (e.terms .sum).map foldedForm ≠ [] := by simpa using terms_ne_nil .sum e
    have hform := foldedForm_sum_of_isTerm (terms_ne_nil .sum e) fun t ht => (hparts t ht).isTerm
    have hothers : ∀ t ∈ ((e.terms .sum).map foldedForm).filter (fun e => !e.isConstant),
        t.isConstant = false := by
      intro t ht
      simpa using (List.mem_filter.1 ht).2
    rw [ofTerms_terms, folded_eq_ofCondensed hne hforms, condensed, if_neg (by simp)] at hform
    rw [hform, isConstant_ofCondensed hothers, List.isEmpty_iff,
      List.filter_eq_nil_iff] at hconstant
    intro t ht
    have hterm := hconstant _ (List.mem_map_of_mem ht)
    rw [(hparts t ht).isTerm.isConstant_foldedForm (hparts t ht).signature_ne_zero,
      Bool.not_eq_true', Bool.not_eq_false, List.isEmpty_iff] at hterm
    exact hterm

/-! ### Expanding folded trees -/

/-- What is known of a folded tree when it has been expanded: it is zero only if the tree is, and
its terms have the factors that the outline of the tree tells. -/
structure Expands (e : Expr) : Prop where
  expanded : Expanded e.expand
  eq_zero : e.expand = integer 0 → e = integer 0
  outline : ((e.expand.terms .sum).map imprint).sum = e.outline

/-- A folded tree that is expanded and folded to an integer is this integer. -/
lemma Expands.eq_integer {e : Expr} (h : Expands e) (he : Folded e) {n : ℤ}
    (hn : e.expand.foldedForm = integer n) : e = integer n := by
  classical
  have hconstant : e.isConstant = true := by
    by_contra hnot
    rw [Bool.not_eq_true] at hnot
    obtain ⟨m, hm, hone⟩ := he.repeated_one hnot
    have hfactors := h.expanded.factors_eq_nil (by rw [hn]; rfl)
    have himprints : (e.expand.terms .sum).map imprint =
        (e.expand.terms .sum).map fun _ => (1 : MvPolynomial Expr ℕ) := by
      refine List.map_congr_left fun t ht => ?_
      rw [imprint, hfactors t ht]
      rfl
    rw [← h.outline, himprints, List.map_const', List.sum_replicate, MvPolynomial.coeff_smul,
      MvPolynomial.coeff_one, if_neg hm.symm, smul_zero] at hone
    exact absurd hone (Nat.not_succ_le_zero 0)
  obtain ⟨k, rfl⟩ := he.eq_integer_of_isConstant hconstant
  exact hn

/-- No term of a folded node is zero. -/
lemma Folded.ne_zero_of_mem {op : AssocOp} {a b : Expr} {rest : List Expr}
    (h : Folded (Expr.nary op a b rest)) : ∀ t ∈ a :: b :: rest, t ≠ Expr.integer 0 := by
  obtain _ | _ | ⟨_, -, -, htidy⟩ | _ := h
  rintro t ht rfl
  rcases List.mem_cons.1 ht with rfl | ht
  · obtain ⟨hunit, hzero⟩ := htidy.1 0 rfl
    cases op with
    | sum => exact hunit rfl
    | product => exact hzero rfl rfl
  · exact Bool.noConfusion (htidy.2 _ ht)

/-- Gathered terms are an expanded tree. -/
lemma expanded_gather {ts : List Expr} (hne : ts ≠ []) (h : ∀ t ∈ ts, PartOf .sum t) :
    Expanded (gather .sum ts) ∧ gather .sum ts ≠ integer 0 ∧ (gather .sum ts).terms .sum = ts := by
  obtain ⟨hexpanded, hzero⟩ := expanded_ofTerms hne h
  rw [gather_of_isExact .sum (isExact_of_partOf h)]
  exact ⟨hexpanded, hzero, terms_ofTerms hne fun t ht => (h t ht).not_sum⟩

section Nodes

variable {es : List Expr} (hne : es ≠ [])
  (hes : ∀ e ∈ es, ∀ t ∈ e.terms .sum, PartOf .sum t)

include hne hes

/-- A choice of terms of the factors is gathered to a term. -/
lemma partOf_of_mem_choices {c : List Expr} (hc : c ∈ choices es) :
    PartOf .sum (gather .product (merged .product c)) := by
  have hfactors : ∀ a ∈ merged .product c, PartOf .product a := by
    intro a ha
    obtain ⟨t, ht, ha⟩ := mem_merged.1 ha
    obtain ⟨f, hf, htf⟩ := exists_of_mem_choices hc ht
    exact (hes f hf t htf).terms a ha
  rw [gather_of_isExact .product (isExact_of_partOf hfactors)]
  exact partOf_ofTerms (merged_ne_nil .product (ne_nil_of_mem_choices hne hc)) hfactors

/-- Distributing a product over expanded factors makes an expanded tree, whose terms have the
factors of one term of each. -/
lemma expanded_distribute :
    Expanded (distribute es) ∧ distribute es ≠ integer 0 ∧
      (((distribute es).terms .sum).map imprint).sum =
        (es.map fun e => ((e.terms .sum).map imprint).sum).prod := by
  have hterms : ∀ t ∈ (choices es).map fun c => gather .product (merged .product c),
      PartOf .sum t :=
    List.forall_mem_map.2 fun c hc => partOf_of_mem_choices hne hes hc
  have hchoices : (choices es).map (fun c => gather .product (merged .product c)) ≠ [] := by
    simpa using choices_ne_nil es
  obtain ⟨hexpanded, hzero, hlist⟩ := expanded_gather hchoices hterms
  refine ⟨hexpanded, hzero, ?_⟩
  rw [distribute, hlist, List.map_map, ← sum_choices]
  exact congrArg List.sum (List.map_congr_left fun c _ => imprint_gather c)

/-- Merging the terms of expanded trees makes an expanded tree, whose terms are all of theirs. -/
lemma expanded_gather_merged :
    Expanded (gather .sum (merged .sum es)) ∧ gather .sum (merged .sum es) ≠ integer 0 ∧
      (((gather .sum (merged .sum es)).terms .sum).map imprint).sum =
        (es.map fun e => ((e.terms .sum).map imprint).sum).sum := by
  have hterms : ∀ t ∈ merged .sum es, PartOf .sum t := by
    intro t ht
    obtain ⟨e, he, ht⟩ := mem_merged.1 ht
    exact hes e he t ht
  obtain ⟨hexpanded, hzero, hlist⟩ := expanded_gather (merged_ne_nil .sum hne) hterms
  refine ⟨hexpanded, hzero, ?_⟩
  rw [hlist, merged, List.map_flatMap, List.flatMap_def, List.sum_flatten, List.map_map]
  rfl

end Nodes

/-- Folded trees are expanded to expanded trees, whose terms have the factors that the outline
tells. -/
theorem Folded.expands {e : Expr} (h : Folded e) : Expands e := by
  induction h with
  | integer n =>
    refine ⟨.integer n, id, ?_⟩
    simp [expand, Expr.terms, imprint, factors, outline]
  | var s =>
    refine ⟨.var s, id, ?_⟩
    simp [expand, Expr.terms, imprint, factors, outline]
  | @nary op a b rest hfolded hnary htidy ih =>
    have hzero := (Folded.nary op hfolded hnary htidy).ne_zero_of_mem
    have hparts : ∀ t ∈ (a :: b :: rest).map expand, ∀ u ∈ t.terms .sum, PartOf .sum u := by
      rw [List.forall_mem_map]
      intro t ht
      exact (ih t ht).expanded.terms (fun h => hzero t ht ((ih t ht).eq_zero h)) (Or.inl rfl)
    have houtlines : (a :: b :: rest).map outline =
        ((a :: b :: rest).map expand).map fun t => ((t.terms .sum).map imprint).sum := by
      rw [List.map_map]
      exact List.map_congr_left fun t ht => (ih t ht).outline.symm
    have hne : (a :: b :: rest).map expand ≠ [] := List.cons_ne_nil _ _
    cases op with
    | sum =>
      obtain ⟨hexpanded, hnot, hsum⟩ := expanded_gather_merged hne hparts
      rw [← expand_sum] at hexpanded hnot hsum
      refine ⟨hexpanded, fun h => absurd h hnot, ?_⟩
      rw [hsum, outline_nary, AssocOp.total_sum, houtlines]
    | product =>
      obtain ⟨hexpanded, hnot, hsum⟩ := expanded_distribute hne hparts
      rw [← expand_product] at hexpanded hnot hsum
      refine ⟨hexpanded, fun h => absurd h hnot, ?_⟩
      rw [hsum, outline_nary, AssocOp.total_product, houtlines]
  | @division l r hl hr hirreducible ihl ihr =>
    refine ⟨.division ihl.expanded ihr.expanded ?_, fun h => Expr.noConfusion h, ?_⟩
    · cases hquotient : integerQuotient? l.expand.foldedForm r.expand.foldedForm with
      | none => rfl
      | some c =>
        obtain ⟨n, m, hn, hm, -, -, -⟩ := integerQuotient?_eq_some_iff.1 hquotient
        rw [hn, hm, ← ihl.eq_integer hl hn, ← ihr.eq_integer hr hm, hirreducible] at hquotient
        exact absurd hquotient.symm (Option.some_ne_none _)
    · simp [expand, Expr.terms, imprint, factors, outline]

end TermAlgebra.Expr
