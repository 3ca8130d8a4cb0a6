import Mathlib.Tactic
import TermAlgebra.Proofs.FoldedForm

/-!
# Sums of monomials

Expanding a polynomial gives a sum of monomials.

A monomial (`isMonomial`) is an integer, a variable or a product of those.  Its factors are its
variables (`mem_factors_of_isMonomial`), and its value changes with no other variable
(`value_update_of_not_mem`).  A monomial in which a variable occurs and no zero is visible
(`isVisible`): it has the value zero where the variable has it, but not everywhere.  The constants
of all other monomials are folded to an integer (`foldConstants_of_not_isVisible`).
-/

namespace TermAlgebra.Expr

/-! ### Monomials -/

/-- Whether an expression is an integer or a variable. -/
def isAtom : Expr → Bool
  | integer _ | var _ => true
  | _ => false

/-- Whether an expression is an integer, a variable or a product of those. -/
def isMonomial (e : Expr) : Bool :=
  (e.terms .product).all isAtom

/-- Whether an expression is a monomial or a sum of monomials. -/
def isMonomialSum (e : Expr) : Bool :=
  (e.terms .sum).all isMonomial

/-- An atom is an integer or a variable. -/
lemma isAtom_iff {e : Expr} : e.isAtom = true ↔ (∃ n, e = integer n) ∨ ∃ s, e = var s := by
  cases e <;> simp [isAtom]

/-- The factors of a monomial are atoms. -/
lemma isMonomial_iff {e : Expr} : e.isMonomial = true ↔ ∀ a ∈ e.terms .product, a.isAtom = true :=
  List.all_eq_true

/-- The terms of a sum of monomials are monomials. -/
lemma isMonomialSum_iff {e : Expr} :
    e.isMonomialSum = true ↔ ∀ t ∈ e.terms .sum, t.isMonomial = true :=
  List.all_eq_true

/-- An atom is no node of an operation. -/
lemma isNary_of_isAtom {op : AssocOp} {e : Expr} (h : e.isAtom = true) : e.isNary op = false := by
  cases e <;> first | rfl | exact Bool.noConfusion h

/-- A monomial is no sum. -/
lemma isNary_of_isMonomial {e : Expr} (h : e.isMonomial = true) : e.isNary .sum = false := by
  cases e with
  | nary op a b rest =>
    cases op with
    | sum => exact Bool.noConfusion (isMonomial_iff.1 h _ List.mem_cons_self)
    | product => rfl
  | _ => rfl

/-- A product of atoms is a monomial. -/
lemma isMonomial_ofTerms {es : List Expr} (hne : es ≠ []) (h : ∀ e ∈ es, e.isAtom = true) :
    (ofTerms .product es).isMonomial = true := by
  rw [isMonomial_iff, terms_ofTerms hne fun e he => isNary_of_isAtom (h e he)]
  exact h

/-- A sum of monomials is one. -/
lemma isMonomialSum_ofTerms {es : List Expr} (hne : es ≠ [])
    (h : ∀ e ∈ es, e.isMonomial = true) : (ofTerms .sum es).isMonomialSum = true := by
  rw [isMonomialSum_iff, terms_ofTerms hne fun e he => isNary_of_isMonomial (h e he)]
  exact h

/-- An atom is a polynomial. -/
lemma isPolynomial_of_isAtom {e : Expr} (h : e.isAtom = true) : e.isPolynomial = true := by
  cases e <;> first | rfl | exact Bool.noConfusion h

/-- A monomial is a polynomial. -/
lemma isPolynomial_of_isMonomial {e : Expr} (h : e.isMonomial = true) : e.isPolynomial = true :=
  (hereditary_isPolynomial.terms .product e).1 fun t ht =>
    isPolynomial_of_isAtom (isMonomial_iff.1 h t ht)

/-- A monomial is exact. -/
lemma isExact_of_isMonomial {e : Expr} (h : e.isMonomial = true) : e.isExact = true :=
  isExact_of_isPolynomial (isPolynomial_of_isMonomial h)

/-- Gathering atoms builds one product. -/
lemma gather_of_isAtom {es : List Expr} (h : ∀ e ∈ es, e.isAtom = true) :
    gather .product es = ofTerms .product es :=
  gather_of_isExact .product fun e he => isExact_of_isPolynomial (isPolynomial_of_isAtom (h e he))

/-- Gathering monomials builds one sum. -/
lemma gather_of_isMonomial {es : List Expr} (h : ∀ e ∈ es, e.isMonomial = true) :
    gather .sum es = ofTerms .sum es :=
  gather_of_isExact .sum fun e he => isExact_of_isMonomial (h e he)

/-! ### Expanding polynomials -/

/-- Merging the factors of monomials gives atoms. -/
lemma isAtom_of_mem_merged {es : List Expr} (h : ∀ e ∈ es, e.isMonomial = true) :
    ∀ a ∈ merged .product es, a.isAtom = true := by
  intro a ha
  obtain ⟨e, he, ha⟩ := mem_merged.1 ha
  exact isMonomial_iff.1 (h e he) a ha

/-- Gathering monomials makes a sum of monomials. -/
lemma isMonomialSum_gather {es : List Expr} (hne : es ≠ []) (h : ∀ e ∈ es, e.isMonomial = true) :
    (gather .sum es).isMonomialSum = true := by
  rw [gather_of_isMonomial h]
  exact isMonomialSum_ofTerms hne h

/-- Distributing a product over sums of monomials makes a sum of monomials. -/
lemma isMonomialSum_distribute {es : List Expr} (hne : es ≠ [])
    (h : ∀ e ∈ es, e.isMonomialSum = true) : (distribute es).isMonomialSum = true := by
  refine isMonomialSum_gather (by simpa using choices_ne_nil es) ?_
  intro t ht
  obtain ⟨c, hc, rfl⟩ := List.mem_map.1 ht
  have hatoms : ∀ a ∈ merged .product c, a.isAtom = true := by
    refine isAtom_of_mem_merged fun u hu => ?_
    obtain ⟨f, hf, huf⟩ := exists_of_mem_choices hc hu
    exact isMonomialSum_iff.1 (h f hf) u huf
  rw [gather_of_isAtom hatoms]
  exact isMonomial_ofTerms (merged_ne_nil .product (ne_nil_of_mem_choices hne hc)) hatoms

/-- Expanding a polynomial gives a sum of monomials. -/
lemma isMonomialSum_expand {e : Expr} (h : e.isPolynomial = true) :
    e.expand.isMonomialSum = true := by
  induction e using Expr.induction with
  | empty => exact Bool.noConfusion h
  | decimal d => exact Bool.noConfusion h
  | integer n => rfl
  | var s => rfl
  | negation e ih =>
    refine isMonomialSum_distribute (List.cons_ne_nil _ _) ?_
    rw [List.forall_mem_cons, List.forall_mem_singleton]
    exact ⟨rfl, ih ((hereditary_isPolynomial.negation e).1 h)⟩
  | nary op a b rest ih =>
    rw [hereditary_isPolynomial.nary] at h
    have hall : ∀ t ∈ (a :: b :: rest).map expand, t.isMonomialSum = true :=
      List.forall_mem_map.2 fun t ht => ih t ht (h t ht)
    cases op with
    | sum =>
      rw [expand_sum]
      refine isMonomialSum_gather (merged_ne_nil .sum (List.cons_ne_nil _ _)) ?_
      intro t ht
      obtain ⟨u, hu, ht⟩ := mem_merged.1 ht
      exact isMonomialSum_iff.1 (hall u hu) t ht
    | product =>
      rw [expand_product]
      exact isMonomialSum_distribute (List.cons_ne_nil _ _) hall
  | division l r _ _ => exact absurd h not_isPolynomial_division
  | parentheses e ih => exact ih (isPolynomial_parentheses_iff.1 h)

/-! ### Variables of a monomial -/

/-- The factors of an expression are those of the factors of a product. -/
lemma factorsAll_terms (e : Expr) : factorsAll (e.terms .product) = e.factors := by
  rcases eq_nary_or_not_isNary .product e with ⟨a, b, rest, rfl⟩ | hnot
  · rw [terms_nary, factors_product]
  · rw [terms_of_not_isNary hnot, factorsAll_singleton]

/-- The factors of a monomial are its variables. -/
lemma mem_factors_of_isMonomial {t f : Expr} (ht : t.isMonomial = true) :
    f ∈ t.factors ↔ f ∈ t.terms .product ∧ ∃ s, f = var s := by
  rw [← factorsAll_terms, mem_factorsAll]
  constructor
  · rintro ⟨a, ha, hf⟩
    rcases isAtom_iff.1 (isMonomial_iff.1 ht a ha) with ⟨n, rfl⟩ | ⟨s, rfl⟩
    · simp [factors] at hf
    · obtain rfl : f = var s := List.mem_singleton.1 hf
      exact ⟨ha, s, rfl⟩
  · rintro ⟨ha, s, rfl⟩
    exact ⟨var s, ha, List.mem_cons_self⟩

/-- The value of a monomial does not depend on variables that do not occur in it. -/
lemma value_update_of_not_mem {t : Expr} (ht : t.isMonomial = true) {v : String}
    (hv : var v ∉ t.factors) (ρ : String → ℚ) (x : ℚ) :
    t.value (Function.update ρ v x) = t.value ρ := by
  rw [← total_terms _ .product t, ← total_terms _ .product t]
  refine congrArg _ (List.map_congr_left fun a ha => ?_)
  rcases isAtom_iff.1 (isMonomial_iff.1 ht a ha) with ⟨n, rfl⟩ | ⟨s, rfl⟩
  · rfl
  · have hne : s ≠ v := by
      rintro rfl
      exact hv ((mem_factors_of_isMonomial ht).2 ⟨ha, s, rfl⟩)
    rw [value, value, Function.update_of_ne hne]

/-- A monomial has the value zero where one of its variables has it. -/
lemma value_eq_zero_of_mem {t : Expr} (ht : t.isMonomial = true) {v : String}
    (hv : var v ∈ t.factors) {ρ : String → ℚ} (hρ : ρ v = 0) : t.value ρ = 0 := by
  rw [← total_terms _ .product t, AssocOp.total_product]
  refine List.prod_eq_zero (List.mem_map.2 ⟨var v, ?_, hρ⟩)
  exact ((mem_factors_of_isMonomial ht).1 hv).1

/-- A monomial without a zero has a value other than zero where all variables are one. -/
lemma value_one_ne_zero {t : Expr} (ht : t.isMonomial = true)
    (hzero : integer 0 ∉ t.terms .product) : t.value (fun _ => 1) ≠ 0 := by
  rw [← total_terms _ .product t, AssocOp.total_product, Ne, List.prod_eq_zero_iff]
  intro hmem
  obtain ⟨a, ha, hvalue⟩ := List.mem_map.1 hmem
  rcases isAtom_iff.1 (isMonomial_iff.1 ht a ha) with ⟨n, rfl⟩ | ⟨s, rfl⟩
  · rw [value, Int.cast_eq_zero] at hvalue
    exact hzero (hvalue ▸ ha)
  · exact one_ne_zero hvalue

/-! ### Visible monomials -/

/-- Whether a variable occurs in a monomial and no zero. -/
def isVisible (t : Expr) : Prop :=
  integer 0 ∉ t.terms .product ∧ t.factors ≠ []

/-- A visible monomial has a variable where it is zero, but not where all variables are one. -/
lemma exists_var_of_isVisible {t : Expr} (ht : t.isMonomial = true) (h : t.isVisible) :
    ∃ v, var v ∈ t.factors ∧ t.value (fun _ => 1) ≠ 0 := by
  obtain ⟨f, hf⟩ := List.exists_mem_of_ne_nil _ h.2
  obtain ⟨-, v, rfl⟩ := (mem_factors_of_isMonomial ht).1 hf
  exact ⟨v, hf, value_one_ne_zero ht h.1⟩

/-- Integers are folded to an integer. -/
lemma foldTerms_of_integers (op : AssocOp) {es : List Expr} (hne : es ≠ [])
    (h : ∀ e ∈ es, ∃ n, e = integer n) : ∃ n, foldTerms op es = .ok (integer n) := by
  have hfolded : ∀ e ∈ es, Folded e := by
    intro e he
    obtain ⟨n, rfl⟩ := h e he
    exact .integer n
  have hmerged : merged op es = es := by
    refine merged_eq_self fun e he => ?_
    obtain ⟨n, rfl⟩ := h e he
    rfl
  have hothers : es.filter (fun e => !e.isConstant) = [] := by
    rw [List.filter_eq_nil_iff]
    intro e he
    obtain ⟨n, rfl⟩ := h e he
    exact Bool.false_ne_true
  by_cases hzero : op = .product ∧ integer 0 ∈ es
  · obtain ⟨rfl, hmem⟩ := hzero
    refine ⟨0, ?_⟩
    rw [foldTerms_eq .product fun e he => (hfolded e he).isDecimalFree, hmerged,
      folded_eq_zero hmem]
  · rw [not_and] at hzero
    have hleft := foldedTerms_foldedConstant_ne_nil op hne
      fun e he => (hfolded e he).isDecimalFree
    rw [foldTerms_eq op fun e he => (hfolded e he).isDecimalFree, hmerged,
      folded_eq_ofTerms hzero fun e he => (hfolded e he).isExact]
    rcases foldedTerms_cases op es with hcases | ⟨hcases, -⟩
    · exact absurd (hcases.trans hothers) hleft
    · rw [hcases, hothers]
      exact ⟨_, rfl⟩

/-- Atoms are folded already. -/
lemma folded_of_isAtom {e : Expr} (h : e.isAtom = true) : Folded e := by
  rcases isAtom_iff.1 h with ⟨n, rfl⟩ | ⟨s, rfl⟩
  · exact .integer n
  · exact .var s

/-- Folding the constants of a product of atoms folds these. -/
lemma foldConstants_product_of_isAtom {a b : Expr} {rest : List Expr}
    (h : ∀ t ∈ a :: b :: rest, t.isAtom = true) :
    foldConstants (product a b rest) = foldTerms .product (a :: b :: rest) := by
  have hterms : List.Forall₂ (fun e e' => foldConstants e = .ok e') (a :: b :: rest)
      (a :: b :: rest) := by
    rw [List.forall₂_same]
    exact fun t ht => (folded_of_isAtom (h t ht)).foldConstants_eq
  rw [foldTerms_eq .product fun t ht => (folded_of_isAtom (h t ht)).isDecimalFree,
    foldConstants_nary_eq_ok_iff]
  exact ⟨_, hterms,
    foldTerms_eq .product fun t ht => (folded_of_isAtom (h t ht)).isDecimalFree⟩

/-- A monomial that is not visible is folded to an integer. -/
lemma foldConstants_of_not_isVisible {t : Expr} (ht : t.isMonomial = true) (h : ¬ t.isVisible) :
    ∃ n, foldConstants t = .ok (integer n) := by
  have hatoms := isMonomial_iff.1 ht
  rcases eq_nary_or_not_isNary .product t with ⟨a, b, rest, rfl⟩ | hnot
  · rw [terms_nary] at hatoms
    rw [foldConstants_product_of_isAtom hatoms]
    by_cases hzero : integer 0 ∈ a :: b :: rest
    · refine ⟨0, ?_⟩
      rw [foldTerms_eq .product fun t ht => (folded_of_isAtom (hatoms t ht)).isDecimalFree,
        merged_eq_self fun t ht => isNary_of_isAtom (hatoms t ht), folded_eq_zero hzero]
    · refine foldTerms_of_integers .product (List.cons_ne_nil _ _) fun u hu => ?_
      refine (isAtom_iff.1 (hatoms u hu)).resolve_right ?_
      rintro ⟨s, rfl⟩
      refine h ⟨by rwa [terms_nary], List.ne_nil_of_mem (a := var s) ?_⟩
      exact (mem_factors_of_isMonomial ht).2 ⟨by rwa [terms_nary], s, rfl⟩
  · rw [terms_of_not_isNary hnot, List.forall_mem_singleton] at hatoms
    rcases isAtom_iff.1 hatoms with ⟨n, rfl⟩ | ⟨s, rfl⟩
    · exact ⟨n, rfl⟩
    · exact absurd ⟨by simp [terms], List.cons_ne_nil _ _⟩ h

/-! ### Dividing monomials -/

/-- Striking powers out of an expression strikes them out of the factors of a product. -/
lemma strikeAll_terms (e : Expr) (powers : Powers) :
    strikeAll (e.terms .product) powers = e.strike powers := by
  rcases eq_nary_or_not_isNary .product e with ⟨a, b, rest, rfl⟩ | hnot
  · rw [terms_nary, strike_product]
  · rw [terms_of_not_isNary hnot, strikeAll, strikeAll, Remains.append, List.append_nil,
      Bool.xor_false]

/-- Striking powers out of what is taken as a whole leaves some of it, and passes no negation. -/
lemma strikeAll_of_isWhole {es : List Expr} (h : ∀ e ∈ es, e.isWhole = true) (powers : Powers) :
    (∀ t ∈ (strikeAll es powers).left, t ∈ es) ∧ (strikeAll es powers).negated = false := by
  induction es generalizing powers with
  | nil => simp [strikeAll]
  | cons e es ih =>
    rw [List.forall_mem_cons] at h
    obtain ⟨hleft, hnegated⟩ := ih h.2 (e.strike powers).powers
    have hfirst : (∀ t ∈ (e.strike powers).left, t = e) ∧ (e.strike powers).negated = false := by
      rw [strike_of_isWhole h.1]
      cases powers.take? e <;> simp
    rw [strikeAll, Remains.append, hnegated, hfirst.2]
    refine ⟨fun t ht => ?_, rfl⟩
    rcases List.mem_append.1 ht with ht | ht
    · rw [hfirst.1 t ht]
      exact List.mem_cons_self
    · exact List.mem_cons_of_mem e (hleft t ht)

/-- Dividing a product of what is taken as a whole leaves the product of some of it, or one. -/
lemma divideOut_of_isWhole {t : Expr} (ht : t.isExact = true)
    (hwhole : ∀ a ∈ t.terms .product, a.isWhole = true) (powers : Powers) :
    (∀ a ∈ (t.strike powers).left, a ∈ t.terms .product) ∧
      ((t.strike powers).left = [] ∧ t.divideOut powers = integer 1 ∨
        (t.strike powers).left ≠ [] ∧
          t.divideOut powers = ofTerms .product (t.strike powers).left) := by
  obtain ⟨hleft, hnegated⟩ := strikeAll_of_isWhole hwhole powers
  rw [strikeAll_terms] at hleft hnegated
  refine ⟨hleft, ?_⟩
  have hexact : ∀ a ∈ (t.strike powers).left, a.isExact = true :=
    fun a ha => (hereditary_isExact.terms .product t).2 ht a (hleft a ha)
  rw [divideOut_eq, hnegated, if_neg Bool.false_ne_true, gather_of_isExact .product hexact]
  by_cases hnil : (t.strike powers).left = []
  · rw [hnil]
    exact Or.inl ⟨rfl, rfl⟩
  · refine Or.inr ⟨hnil, if_neg ?_⟩
    rw [isEmpty_of_isExact ((hereditary_isExact.ofTerms .product hnil).2 hexact)]
    exact Bool.false_ne_true

/-- An atom is taken as a whole. -/
lemma isWhole_of_isAtom {e : Expr} (h : e.isAtom = true) : e.isWhole = true := by
  cases e <;> first | rfl | exact Bool.noConfusion h

/-- The factors of a monomial are taken as a whole. -/
lemma isWhole_of_isMonomial {t : Expr} (ht : t.isMonomial = true) :
    ∀ a ∈ t.terms .product, a.isWhole = true :=
  fun a ha => isWhole_of_isAtom (isMonomial_iff.1 ht a ha)

/-- Dividing a monomial leaves a monomial. -/
lemma isMonomial_divideOut {t : Expr} (ht : t.isMonomial = true) (powers : Powers) :
    (t.divideOut powers).isMonomial = true := by
  obtain ⟨hleft, hcases⟩ :=
    divideOut_of_isWhole (isExact_of_isMonomial ht) (isWhole_of_isMonomial ht) powers
  rcases hcases with ⟨-, hone⟩ | ⟨hne, hproduct⟩
  · rw [hone]
    rfl
  · rw [hproduct]
    exact isMonomial_ofTerms hne fun a ha => isMonomial_iff.1 ht a (hleft a ha)

/-- The factors of gathered terms are those of the terms. -/
lemma factors_gather (es : List Expr) : (gather .product es).factors = factorsAll es := by
  have hofTerms : ∀ ts : List Expr, (ofTerms .product ts).factors = factorsAll ts := by
    intro ts
    match ts with
    | [] => rfl
    | [t] => rw [ofTerms, factorsAll_singleton]
    | a :: b :: rest => rfl
  rw [gather, hofTerms]
  induction es with
  | nil => rfl
  | cons e es ih =>
    by_cases he : e.isEmpty = true
    · rw [List.filter_cons_of_neg (by rw [he]; decide), ih, isEmpty_iff.1 he]
      rfl
    · rw [Bool.not_eq_true] at he
      rw [List.filter_cons_of_pos (by rw [he]; rfl), factorsAll, factorsAll, ih]

/-- The factors of a quotient are those that are left. -/
lemma factors_divideOut (t : Expr) (powers : Powers) :
    (t.divideOut powers).factors = factorsAll (t.strike powers).left := by
  have hquotient : (if (gather .product (t.strike powers).left).isEmpty then integer 1
      else gather .product (t.strike powers).left).factors = factorsAll (t.strike powers).left := by
    rw [← factors_gather]
    split
    · next hempty => rw [isEmpty_iff.1 hempty]; rfl
    · rfl
  rw [divideOut_eq]
  split
  · exact hquotient
  · exact hquotient

/-- The factors of what is taken out are the powers of it. -/
lemma factors_factor (f : Expr) (es : List Expr) :
    (factorizationBy f es).factor.factors = (companionPowers f es).elements := by
  have hself : ∀ g ∈ (companionPowers f es).elements, g.factors = [g] := by
    intro g hg
    have hbase := Powers.mem_bases_of_mem_elements hg
    rw [bases_companionPowers] at hbase
    obtain ⟨t, -, hgt⟩ := mem_factorsAll.1 (mem_factorsAll_of_mem_companions hbase)
    exact factors_of_mem_factors hgt
  rw [factorizationBy, factors_gather, factorsAll_eq_flatMap, List.flatMap_def,
    List.map_congr_left hself, ← List.flatMap_def, List.flatMap_singleton']

/-- A term that has a factor has the factors that are taken out with it and those of its
quotient. -/
lemma factors_perm_of_mem_holders {es : List Expr} (hes : ∀ e ∈ es, e.isDecimalFree = true)
    (f : Expr) {t : Expr} (ht : t ∈ holders f es) :
    t.factors.Perm ((companionPowers f es).elements ++
      (t.divideOut (companionPowers f es)).factors) := by
  obtain ⟨gone, hstrikes, hperm⟩ := exists_strikes_holder hes f ht
  have hfactors := hstrikes.factors
  rw [factorsAll_singleton] at hfactors
  rw [factors_divideOut]
  exact hfactors.trans (hperm.symm.append_right _)

/-- Fewer factors are left of a term that has the factor that is taken out. -/
lemma length_factors_divideOut_lt {es : List Expr} (hes : ∀ e ∈ es, e.isDecimalFree = true)
    {f : Expr} (hf : f ∈ factorsAll es) {t : Expr} (ht : t ∈ holders f es) :
    (t.divideOut (companionPowers f es)).factors.length < t.factors.length := by
  have hmem : f ∈ (companionPowers f es).elements :=
    mem_elements_companionPowers hf (mem_companions_self (mem_eraseDups_factorsAll hes hf))
  have hpos := List.length_pos_of_mem hmem
  have hlength := (factors_perm_of_mem_holders hes f ht).length_eq
  rw [List.length_append] at hlength
  omega

/-- The number of factors of terms is the sum of those of each term. -/
lemma length_factorsAll (es : List Expr) :
    (factorsAll es).length = (es.map fun t => t.factors.length).sum := by
  rw [factorsAll_eq_flatMap, List.length_flatMap]

/-- The factors of a sum are those of the terms that have a factor and of those that do not. -/
lemma length_factorsAll_holders_add (f : Expr) (es : List Expr) :
    (factorsAll (holders f es)).length + (factorsAll (others f es)).length =
      (factorsAll es).length := by
  simp only [length_factorsAll]
  rw [← List.sum_append, ← List.map_append]
  exact ((holders_append_others_perm f es).map _).sum_eq

end TermAlgebra.Expr
