import Mathlib.Algebra.MvPolynomial.Funext
import Mathlib.Tactic
import TermAlgebra.Proofs.Collecting
import TermAlgebra.Proofs.Monomials
import TermAlgebra.Proofs.Nesting

/-!
# Constant polynomials

Simplification finds out whether a polynomial is constant. That it gives no wrong constant is a
case of its soundness. That it finds the constant needs the collecting of terms to be complete:
after expansion a polynomial is a sum of monomials, and if two of these share a variable `v`, then
one of the factorizations tried is the one by `v`. Its factor vanishes together with `v` while the
sum stays the same, so its remainder is the constant and its cofactor is the zero polynomial. Both
have fewer factors than the sum, hence they are collected to integers by induction. If no two
monomials share a variable, then none of them depends on a variable at all. In both cases one of
the candidates is an integer, and a candidate as simple as that is an integer itself.

Main results: `Expr.polynomial_eq_iff`, `Expr.collectUpTo_of_constant` and
`Expr.simplify_decides_constant`.
-/

namespace TermAlgebra.Expr

/-! ### Polynomials -/

mutual

/-- The polynomial that an expression without decimals and divisions stands for. -/
noncomputable def polynomial : Expr → MvPolynomial String ℤ
  | empty => 0
  | integer n => MvPolynomial.C n
  | decimal _ => 0
  | var s => MvPolynomial.X s
  | negation e => -polynomial e
  | nary op a b rest => op.total (polynomial a :: polynomial b :: polynomials rest)
  | division _ _ => 0
  | parentheses e => polynomial e

/-- The polynomials of all the expressions. -/
noncomputable def polynomials : List Expr → List (MvPolynomial String ℤ)
  | [] => []
  | e :: es => polynomial e :: polynomials es

end

/-- The polynomials are taken item by item. -/
lemma polynomials_eq_map (es : List Expr) : polynomials es = es.map polynomial := by
  induction es with
  | nil => rfl
  | cons e es ih => rw [polynomials, ih, List.map_cons]

/-- A polynomial has a value under every assignment. -/
lemma defined_of_isPolynomial {e : Expr} (h : e.isPolynomial = true) (ρ : String → ℚ) :
    e.Defined ρ := by
  induction e using Expr.induction with
  | empty => exact Bool.noConfusion h
  | decimal d => exact Bool.noConfusion h
  | integer n => trivial
  | var s => trivial
  | negation e ih => exact ih ((hereditary_isPolynomial.negation e).1 h)
  | nary op a b rest ih =>
    rw [hereditary_isPolynomial.nary] at h
    rw [(hereditary_defined ρ).nary]
    exact fun t ht => ih t ht (h t ht)
  | division l r _ _ => exact absurd h not_isPolynomial_division
  | parentheses e ih => exact ih (isPolynomial_parentheses_iff.1 h)

/-- The value of an expression is that of its polynomial. -/
lemma value_eq_aeval {e : Expr} (h : e.isPolynomial = true) (ρ : String → ℚ) :
    e.value ρ = MvPolynomial.aeval ρ e.polynomial := by
  induction e using Expr.induction with
  | empty => exact Bool.noConfusion h
  | decimal d => exact Bool.noConfusion h
  | integer n => simp [value, polynomial]
  | var s => simp [value, polynomial]
  | negation e ih =>
    rw [value, polynomial, map_neg, ih ((hereditary_isPolynomial.negation e).1 h)]
  | nary op a b rest ih =>
    rw [hereditary_isPolynomial.nary] at h
    have hall : (a :: b :: rest).map (value ρ) = ((a :: b :: rest).map polynomial).map
        (MvPolynomial.aeval ρ : MvPolynomial String ℤ →ₐ[ℤ] ℚ) := by
      rw [List.map_map]
      exact List.map_congr_left fun t ht => ih t ht (h t ht)
    have htotal := op.map_total
      ((MvPolynomial.aeval ρ : MvPolynomial String ℤ →ₐ[ℤ] ℚ) : MvPolynomial String ℤ →+* ℚ)
      ((a :: b :: rest).map polynomial)
    rw [value_nary, polynomial, polynomials_eq_map, hall]
    exact htotal.symm
  | division l r _ _ => exact absurd h not_isPolynomial_division
  | parentheses e ih => exact ih (isPolynomial_parentheses_iff.1 h)

/-- The value under an assignment of integers is that of the polynomial at integers. -/
lemma value_intCast {e : Expr} (h : e.isPolynomial = true) (ρ : String → ℤ) :
    e.value (fun s => ρ s) = (MvPolynomial.eval ρ e.polynomial : ℤ) := by
  rw [value_eq_aeval h]
  exact MvPolynomial.aeval_algebraMap_apply ℚ ρ e.polynomial

/-- Two expressions are equal as polynomials if they have the same values at all integers. -/
lemma polynomial_eq_iff {a b : Expr} (ha : a.isPolynomial = true) (hb : b.isPolynomial = true) :
    a.polynomial = b.polynomial ↔
      ∀ ρ : String → ℤ, a.value (fun s => ρ s) = b.value fun s => ρ s := by
  constructor
  · intro h ρ
    rw [value_intCast ha, value_intCast hb, h]
  · intro h
    refine MvPolynomial.funext fun ρ => ?_
    have hvalue := h ρ
    rw [value_intCast ha, value_intCast hb] at hvalue
    exact_mod_cast hvalue

/-- An expression that is constant at all integers is constant. -/
lemma value_eq_of_intCast {e : Expr} (h : e.isPolynomial = true) {c : ℤ}
    (hc : ∀ ρ : String → ℤ, e.value (fun s => ρ s) = c) (ρ : String → ℚ) : e.value ρ = c := by
  have hpolynomial : e.polynomial = (integer c).polynomial :=
    (polynomial_eq_iff h rfl).2 fun ρ => hc ρ
  rw [value_eq_aeval h, hpolynomial, ← value_eq_aeval rfl, value]

/-- A product vanishes everywhere only if one of its factors does. -/
lemma value_eq_zero_of_mul {a b : Expr} (ha : a.isPolynomial = true) (hb : b.isPolynomial = true)
    (h : ∀ ρ : String → ℚ, a.value ρ * b.value ρ = 0) {σ : String → ℚ} (hσ : a.value σ ≠ 0)
    (ρ : String → ℚ) : b.value ρ = 0 := by
  have hmul : a.polynomial * b.polynomial = 0 := by
    refine MvPolynomial.funext fun τ => ?_
    have hvalue := h fun s => τ s
    rw [value_intCast ha, value_intCast hb] at hvalue
    rw [map_mul, map_zero]
    exact_mod_cast hvalue
  rcases mul_eq_zero.1 hmul with hzero | hzero
  · rw [value_eq_aeval ha, hzero, map_zero] at hσ
    exact absurd rfl hσ
  · rw [value_eq_aeval hb, hzero, map_zero]

/-- A constant polynomial is rewritten to no other integer than its value. -/
lemma eq_of_rewrites_integer {e : Expr} (he : e.isPolynomial = true) {k c : ℤ}
    (hc : ∀ ρ : String → ℚ, e.value ρ = c) (h : Rewrites e (integer k)) : k = c := by
  have hvalue := (h.refines (defined_of_isPolynomial he fun _ => 0)).2
  rw [hc, value] at hvalue
  exact_mod_cast hvalue

/-! ### A factor that several terms share -/

section Shared

variable {ts : List Expr} (hts : ∀ t ∈ ts, t.isMonomial = true) {c : ℤ}
  (hc : ∀ ρ : String → ℚ, (ts.map (value ρ)).sum = c) {v : String} (hv : var v ∈ factorsAll ts)

include hts

/-- Monomials have no decimals. -/
lemma isDecimalFree_of_isMonomial : ∀ t ∈ ts, t.isDecimalFree = true :=
  fun t ht => isDecimalFree_of_isExact (isExact_of_isMonomial (hts t ht))

/-- Monomials have a value under every assignment. -/
lemma defined_of_isMonomial (ρ : String → ℚ) : ∀ t ∈ ts, t.Defined ρ :=
  fun t ht => defined_of_isPolynomial (isPolynomial_of_isMonomial (hts t ht)) ρ

/-- What is taken out of monomials are variables. -/
lemma exists_var_of_mem_companionPowers {f g : Expr}
    (hg : g ∈ (companionPowers f ts).elements) : ∃ s, g = var s := by
  have hbase := Powers.mem_bases_of_mem_elements hg
  rw [bases_companionPowers] at hbase
  obtain ⟨t, ht, hgt⟩ := mem_factorsAll.1 (mem_factorsAll_of_mem_companions hbase)
  exact ((mem_factors_of_isMonomial (hts t ht)).1 hgt).2

include hv

/-- Every factor of a monomial is tried. -/
lemma mem_eraseDups_of_isMonomial : var v ∈ (factorsAll ts).eraseDups :=
  mem_eraseDups_factorsAll (isDecimalFree_of_isMonomial hts) hv

include hc

/-- When a constant sum is factored by a variable, the remainder is that constant. -/
lemma value_remainder_of_constant (ρ : String → ℚ) :
    (factorizationBy (var v) ts).remainder.value ρ = c := by
  have hf := mem_eraseDups_of_isMonomial hts hv
  -- The remainder does not depend on the variable, and the factor vanishes with it.
  have hsame : (factorizationBy (var v) ts).remainder.value (Function.update ρ v 0) =
      (factorizationBy (var v) ts).remainder.value ρ := by
    have hdefined := defined_of_isMonomial hts
    rw [value_remainder (hdefined _), value_remainder (hdefined _)]
    refine congrArg _ (List.map_congr_left fun t ht => ?_)
    obtain ⟨ht, hnot⟩ := (mem_others (isDecimalFree_of_isMonomial hts) hv).1 ht
    exact value_update_of_not_mem (hts t ht) hnot ρ 0
  have hfactor : (factorizationBy (var v) ts).factor.value (Function.update ρ v 0) = 0 := by
    rw [value_factor (defined_of_isMonomial hts _) hf]
    refine List.prod_eq_zero (List.mem_map.2 ⟨var v, ?_, Function.update_self v 0 ρ⟩)
    exact mem_elements_companionPowers hv (mem_companions_self hf)
  have hvalue := value_factorizationBy (defined_of_isMonomial hts (Function.update ρ v 0)) hf
  rw [hfactor, zero_mul, zero_add, hsame, hc] at hvalue
  exact hvalue

/-- When a constant sum is factored by a variable, the cofactor vanishes. -/
lemma value_cofactor_of_constant (ρ : String → ℚ) :
    (factorizationBy (var v) ts).cofactor.value ρ = 0 := by
  have hf := mem_eraseDups_of_isMonomial hts hv
  have hpolynomial : ∀ t ∈ ts, t.isPolynomial = true :=
    fun t ht => isPolynomial_of_isMonomial (hts t ht)
  have hone : (factorizationBy (var v) ts).factor.value (fun _ => 1) ≠ 0 := by
    rw [value_factor (defined_of_isMonomial hts _) hf, Ne, List.prod_eq_zero_iff]
    intro hmem
    obtain ⟨g, hg, hvalue⟩ := List.mem_map.1 hmem
    obtain ⟨s, rfl⟩ := exists_var_of_mem_companionPowers hts hg
    exact one_ne_zero hvalue
  refine value_eq_zero_of_mul (hereditary_isPolynomial.factor hpolynomial hf)
    (hereditary_isPolynomial.cofactor hpolynomial hf) (fun σ => ?_) hone ρ
  have hvalue := value_factorizationBy (defined_of_isMonomial hts σ) hf
  rw [value_remainder_of_constant hts hc hv, hc] at hvalue
  exact add_eq_right.1 hvalue

end Shared

/-- In a constant sum of monomials of which no two share a variable, none is visible. -/
lemma not_isVisible_of_unshared {ts : List Expr} (hts : ∀ t ∈ ts, t.isMonomial = true) {c : ℤ}
    (hc : ∀ ρ : String → ℚ, (ts.map (value ρ)).sum = c)
    (hunshared : ∀ v, (holders (var v) ts).length < 2) : ∀ t ∈ ts, ¬ t.isVisible := by
  intro t ht hvisible
  obtain ⟨v, hv, hone⟩ := exists_var_of_isVisible (hts t ht) hvisible
  have hvall : var v ∈ factorsAll ts := mem_factorsAll.2 ⟨t, ht, hv⟩
  have hfree := isDecimalFree_of_isMonomial hts
  have hholder : t ∈ holders (var v) ts := (mem_holders hfree hvall).2 ⟨ht, hv⟩
  have hsingle : holders (var v) ts = [t] := by
    have hlength := hunshared v
    match holders (var v) ts, hholder, hlength with
    | [u], hu, _ => rw [List.mem_singleton.1 hu]
  have hsplit : ∀ ρ : String → ℚ, t.value ρ + ((others (var v) ts).map (value ρ)).sum = c := by
    intro ρ
    have hperm := ((holders_append_others_perm (var v) ts).map (value ρ)).sum_eq
    rw [hsingle, List.singleton_append, List.map_cons, List.sum_cons, hc] at hperm
    exact hperm
  have hothers : ((others (var v) ts).map (value (Function.update (fun _ => 1) v 0))).sum =
      ((others (var v) ts).map (value fun _ => 1)).sum := by
    refine congrArg _ (List.map_congr_left fun u hu => ?_)
    obtain ⟨hu, hnot⟩ := (mem_others hfree hvall).1 hu
    exact value_update_of_not_mem (hts u hu) hnot _ 0
  -- Setting the variable to zero takes the monomial away and changes nothing else.
  have hzero := hsplit (Function.update (fun _ => 1) v 0)
  rw [value_eq_zero_of_mem (hts t ht) hv (Function.update_self v 0 _), hothers, zero_add,
    ← hsplit fun _ => 1] at hzero
  exact hone (right_eq_add.1 hzero)

/-! ### Collecting a constant sum of monomials -/

/-- Collecting leaves a monomial as it is. -/
lemma collectUpTo_of_isMonomial {t : Expr} (ht : t.isMonomial = true) (size : ℕ) :
    collectUpTo size t = .ok t := by
  cases size with
  | zero => rfl
  | succ size =>
    have hatoms := isMonomial_iff.1 ht
    rcases eq_nary_or_not_isNary .product t with ⟨a, b, rest, rfl⟩ | hnot
    · rw [terms_nary] at hatoms
      refine collectWith_product_eq_ok_iff.2 ⟨a :: b :: rest, ?_, ?_⟩
      · rw [List.forall₂_same]
        intro u hu
        rcases isAtom_iff.1 (hatoms u hu) with ⟨n, rfl⟩ | ⟨s, rfl⟩ <;> rfl
      · rw [merged_eq_self fun u hu => isNary_of_isAtom (hatoms u hu), gather_of_isAtom hatoms]
        rfl
    · rw [terms_of_not_isNary hnot, List.forall_mem_singleton] at hatoms
      rcases isAtom_iff.1 hatoms with ⟨n, rfl⟩ | ⟨s, rfl⟩ <;> rfl

/-- A constant monomial is folded to its value. -/
lemma foldConstants_of_constant {t : Expr} (ht : t.isMonomial = true) {c : ℤ}
    (hc : ∀ ρ : String → ℚ, t.value ρ = c) : foldConstants t = .ok (integer c) := by
  have hnot : ¬ t.isVisible := by
    intro hvisible
    obtain ⟨v, hv, hone⟩ := exists_var_of_isVisible ht hvisible
    have hzero := hc (Function.update (fun _ => 1) v 0)
    rw [value_eq_zero_of_mem ht hv (Function.update_self v 0 _), ← hc fun _ => 1] at hzero
    exact hone hzero.symm
  obtain ⟨k, hk⟩ := foldConstants_of_not_isVisible ht hnot
  rw [hk, eq_of_rewrites_integer (isPolynomial_of_isMonomial ht) hc (rewrites_of_foldConstants hk)]

/-- If no monomial of a sum is visible, the sum is folded to an integer. -/
lemma foldConstants_gather_of_not_isVisible {ts : List Expr} (hne : ts ≠ [])
    (hts : ∀ t ∈ ts, t.isMonomial = true) (hnot : ∀ t ∈ ts, ¬ t.isVisible) :
    ∃ n, foldConstants (gather .sum ts) = .ok (integer n) := by
  rw [gather_of_isMonomial hts]
  match ts, hne with
  | [t], _ =>
    exact foldConstants_of_not_isVisible (hts t List.mem_cons_self) (hnot t List.mem_cons_self)
  | a :: b :: rest, _ =>
    have hall : ∀ t ∈ a :: b :: rest, ∃ r, foldConstants t = .ok r ∧ ∃ n, r = integer n := by
      intro t ht
      obtain ⟨n, hn⟩ := foldConstants_of_not_isVisible (hts t ht) (hnot t ht)
      exact ⟨integer n, hn, n, rfl⟩
    obtain ⟨es, hes, hintegers⟩ := exists_forall₂_of_forall_and hall
    have hne : es ≠ [] := ne_nil_of_forall₂ hes (List.cons_ne_nil _ _)
    obtain ⟨n, hn⟩ := foldTerms_of_integers .sum hne hintegers
    exact ⟨n, foldConstants_nary_eq_ok_iff.2 ⟨es, hes, hn⟩⟩

/-- Dividing the terms that have a factor leaves fewer factors. -/
lemma length_factorsAll_quotients_lt {ts : List Expr} (hts : ∀ t ∈ ts, t.isMonomial = true)
    {v : String} (hv : var v ∈ factorsAll ts) :
    (factorsAll ((holders (var v) ts).map fun t =>
      t.divideOut (companionPowers (var v) ts))).length <
        (factorsAll (holders (var v) ts)).length := by
  rw [length_factorsAll, length_factorsAll, List.map_map]
  exact List.sum_lt_sum_of_ne_nil (holders_ne_nil hv) _ _ fun t ht =>
    length_factors_divideOut_lt (isDecimalFree_of_isMonomial hts) hv ht

/-- The collected remainder of a factored sum with a constant value is empty or folded to this
value, if collecting smaller sums succeeds with their values. -/
lemma exists_collectUpTo_remainder {ts : List Expr} (hts : ∀ t ∈ ts, t.isMonomial = true) {c : ℤ}
    (hc : ∀ ρ : String → ℚ, (ts.map (value ρ)).sum = c) {size : ℕ}
    (ih : ∀ a b rest, ts = a :: b :: rest → collectUpTo size (sum a b rest) = .ok (integer c)) :
    ∃ r, collectUpTo size (gather .sum ts) = .ok r ∧
      (r = empty ∧ c = 0 ∨ r.isEmpty = false ∧ foldConstants r = .ok (integer c)) := by
  rw [gather_of_isMonomial hts]
  match ts with
  | [] =>
    have hzero := hc fun _ => 0
    rw [List.map_nil, List.sum_nil] at hzero
    exact ⟨empty, collectUpTo_empty size, Or.inl ⟨rfl, by exact_mod_cast hzero.symm⟩⟩
  | [t] =>
    have ht := hts t List.mem_cons_self
    refine ⟨t, collectUpTo_of_isMonomial ht size, Or.inr ⟨?_, foldConstants_of_constant ht ?_⟩⟩
    · exact isEmpty_of_isExact (isExact_of_isMonomial ht)
    · simpa using hc
  | a :: b :: rest => exact ⟨integer c, ih a b rest rfl, Or.inr ⟨rfl, rfl⟩⟩

/-- In a constant sum of monomials of which two share a variable, the factorization by this variable
is a candidate that is an integer, if collecting smaller sums succeeds with their values. -/
lemma recollect_of_shared {ts : List Expr} (hts : ∀ t ∈ ts, t.isMonomial = true) {c : ℤ}
    (hc : ∀ ρ : String → ℚ, (ts.map (value ρ)).sum = c) {v : String}
    (hshared : 2 ≤ (holders (var v) ts).length) {size : ℕ}
    (ih : ∀ {a b : Expr} {rest : List Expr} {c : ℤ},
      (∀ t ∈ a :: b :: rest, t.isMonomial = true) →
      (∀ ρ : String → ℚ, ((a :: b :: rest).map (value ρ)).sum = c) →
      (factorsAll (a :: b :: rest)).length < (factorsAll ts).length →
      collectUpTo size (sum a b rest) = .ok (integer c)) :
    factorizationBy (var v) ts ∈ usefulFactorizations ts ∧
      recollect (collectUpTo size) (factorizationBy (var v) ts) = .ok (integer c) := by
  have hfree := isDecimalFree_of_isMonomial hts
  have hv : var v ∈ factorsAll ts := by
    obtain ⟨t, ht⟩ := List.exists_mem_of_length_pos (l := holders (var v) ts) (by omega)
    obtain ⟨ht, hcontains⟩ := List.mem_filter.1 ht
    exact mem_factorsAll.2 ⟨t, ht, (contains_iff_mem rfl).1 hcontains⟩
  have hf := mem_eraseDups_of_isMonomial hts hv
  have hlength := length_factorsAll_quotients_lt hts hv
  have hadd := length_factorsAll_holders_add (var v) ts
  have hquotients : ∀ q ∈ (holders (var v) ts).map fun t =>
      t.divideOut (companionPowers (var v) ts), q.isMonomial = true := by
    rw [List.forall_mem_map]
    exact fun t ht => isMonomial_divideOut (hts t (List.mem_filter.1 ht).1) _
  have hcofactor : (factorizationBy (var v) ts).cofactor = ofTerms .sum
      ((holders (var v) ts).map fun t => t.divideOut (companionPowers (var v) ts)) :=
    gather_of_isMonomial hquotients
  have hzero := value_cofactor_of_constant hts hc hv
  -- The cofactor is a sum of two or more monomials.
  obtain ⟨first, second, later, hlist⟩ : ∃ first second later, ((holders (var v) ts).map fun t =>
      t.divideOut (companionPowers (var v) ts)) = first :: second :: later := by
    match holders (var v) ts, hshared with
    | t :: u :: rest, _ => exact ⟨_, _, _, rfl⟩
  rw [hlist] at hcofactor hquotients hlength
  refine ⟨List.mem_filter.2 ⟨mem_factorizationsOf.2 ⟨_, hf, rfl⟩, by rw [hcofactor]; rfl⟩, ?_⟩
  have hothers : ∀ t ∈ others (var v) ts, t.isMonomial = true :=
    fun t ht => hts t (List.mem_filter.1 ht).1
  have hconstant : ∀ ρ : String → ℚ, ((others (var v) ts).map (value ρ)).sum = c := by
    intro ρ
    rw [← value_remainder (defined_of_isMonomial hts ρ), value_remainder_of_constant hts hc hv]
  obtain ⟨remainder, hremainder, hfold⟩ : ∃ r,
      collectUpTo size (factorizationBy (var v) ts).remainder = .ok r ∧
        (r = empty ∧ c = 0 ∨ r.isEmpty = false ∧ foldConstants r = .ok (integer c)) := by
    refine exists_collectUpTo_remainder hothers hconstant fun a b rest hrest => ?_
    rw [hrest] at hothers hconstant hadd
    exact ih hothers hconstant (by omega)
  refine recollect_of_zero (hereditary_isDecimalFree.factor hfree hf) ?_ hremainder hfold
  rw [hcofactor] at hzero ⊢
  refine ih hquotients (fun ρ => ?_) (by omega)
  rw [Int.cast_zero, ← hzero ρ]
  exact (value_nary ρ .sum first second later).symm

/-- Collecting a constant sum of monomials gives its value, if as many levels are allowed as there
are factors. -/
lemma collectUpTo_of_constant {size : ℕ} {a b : Expr} {rest : List Expr} {c : ℤ}
    (hts : ∀ t ∈ a :: b :: rest, t.isMonomial = true)
    (hc : ∀ ρ : String → ℚ, ((a :: b :: rest).map (value ρ)).sum = c)
    (hsize : (factorsAll (a :: b :: rest)).length < size) :
    collectUpTo size (sum a b rest) = .ok (integer c) := by
  induction size generalizing a b rest c with
  | zero => exact absurd hsize (Nat.not_lt_zero _)
  | succ size ih =>
    have hfree := isDecimalFree_of_isMonomial hts
    obtain ⟨plain, candidates, hplain, hcandidates, -⟩ :=
      exists_collectSum (exists_collectUpTo size) hfree (List.cons_ne_nil _ _) hfree
    have hcollect : collectSum (collectUpTo size) (a :: b :: rest) (a :: b :: rest) =
        .ok (simplestOf plain candidates) :=
      collectSum_eq_ok_iff.2 ⟨plain, candidates, hplain, hcandidates, rfl⟩
    -- One of the candidates is an integer.
    have hsimple : ∃ e ∈ plain :: candidates, e.complexity ≤ 1 := by
      by_cases hshared : ∃ v, 2 ≤ (holders (var v) (a :: b :: rest)).length
      · obtain ⟨v, hshared⟩ := hshared
        obtain ⟨huseful, hrecollect⟩ := recollect_of_shared hts hc hshared
          fun hts hc hlt => ih hts hc (by omega)
        obtain ⟨e, he, hcandidate⟩ := exists_mem_of_forall₂ hcandidates huseful
        rw [hrecollect, Except.ok.injEq] at hcandidate
        exact ⟨e, List.mem_cons_of_mem plain he, hcandidate ▸ le_rfl⟩
      · have hunshared : ∀ v, (holders (var v) (a :: b :: rest)).length < 2 :=
          fun v => Nat.lt_of_not_le fun hle => hshared ⟨v, hle⟩
        obtain ⟨n, hn⟩ := foldConstants_gather_of_not_isVisible (List.cons_ne_nil _ _) hts
          (not_isVisible_of_unshared hts hc hunshared)
        rw [hplain, Except.ok.injEq] at hn
        exact ⟨plain, List.mem_cons_self, hn ▸ le_rfl⟩
    obtain ⟨e, he, hone⟩ := hsimple
    have hbest := (complexity_simplestOf_le plain candidates e he).trans hone
    have hpolynomial : (sum a b rest).isPolynomial = true :=
      (hereditary_isPolynomial.nary .sum a b rest).2 fun t ht =>
        isPolynomial_of_isMonomial (hts t ht)
    obtain ⟨e', hrewrites, hfold⟩ := exists_rewrites_of_collectSum
      (fun _ _ => rewrites_of_collectUpTo) (collectUpTo_empty size) (List.cons_ne_nil _ _)
      (List.forall₂_same.2 fun t _ => .refl t) hcollect
    have hfolded := folded_of_foldConstants
      (isExact_of_isPolynomial (hrewrites.isPolynomial hpolynomial)) hfold
    obtain ⟨k, hk⟩ := hfolded.eq_integer hbest
    have hvalue : k = c := by
      refine eq_of_rewrites_integer hpolynomial (fun ρ => ?_)
        (hk ▸ hrewrites.trans (rewrites_of_foldConstants hfold))
      rw [← hc ρ]
      exact value_nary ρ .sum a b rest
    refine collectWith_sum_eq_ok_iff.2 ⟨a :: b :: rest, ?_, ?_⟩
    · rw [List.forall₂_same]
      exact fun t ht => collectUpTo_of_isMonomial (hts t ht) (size + 1)
    · rw [hcollect, hk, hvalue]

/-- The numbers of nodes are added up. -/
lemma openSizeAll_eq_sum (es : List Expr) : openSizeAll es = (es.map openSize).sum := by
  induction es with
  | nil => rfl
  | cons e es ih => rw [openSizeAll, ih, List.map_cons, List.sum_cons]

/-- An expression has no more factors than open nodes. -/
lemma length_factors_le_openSize (e : Expr) : e.factors.length ≤ e.openSize := by
  induction e using inductionOnFactors with
  | negation e ih => exact ih.trans (Nat.le_succ _)
  | product a b rest ih =>
    have hsum : ((a :: b :: rest).map fun t => t.factors.length).sum ≤
        ((a :: b :: rest).map openSize).sum := List.sum_le_sum ih
    rw [factors_product, length_factorsAll, openSize, openSizeAll_eq_sum]
    simp only [List.map_cons, List.sum_cons] at hsum ⊢
    omega
  | whole e he =>
    rw [factors_of_isWhole he]
    cases e <;> simp [isConstant, isEmpty, openSize]

/-- The terms of a sum have fewer factors than the sum has open nodes. -/
lemma length_factorsAll_lt_openSize (a b : Expr) (rest : List Expr) :
    (factorsAll (a :: b :: rest)).length < (sum a b rest).openSize := by
  have hle : ((a :: b :: rest).map fun t => t.factors.length).sum ≤
      ((a :: b :: rest).map openSize).sum :=
    List.sum_le_sum fun t _ => length_factors_le_openSize t
  rw [length_factorsAll, openSize, openSizeAll_eq_sum]
  simp only [List.map_cons, List.sum_cons] at hle ⊢
  omega

/-- Collecting and folding a constant sum of monomials gives its value. -/
lemma exists_collect_of_constant {e : Expr} (he : e.isMonomialSum = true) {c : ℤ}
    (hc : ∀ ρ : String → ℚ, e.value ρ = c) :
    ∃ r, collect e = .ok r ∧ foldConstants r = .ok (integer c) := by
  have hts := isMonomialSum_iff.1 he
  rcases eq_nary_or_not_isNary .sum e with ⟨a, b, rest, rfl⟩ | hnot
  · rw [terms_nary] at hts
    refine ⟨integer c, collectUpTo_of_constant hts (fun ρ => ?_)
      (length_factorsAll_lt_openSize a b rest), rfl⟩
    rw [← hc ρ]
    exact (value_nary ρ .sum a b rest).symm
  · rw [terms_of_not_isNary hnot, List.forall_mem_singleton] at hts
    exact ⟨e, collectUpTo_of_isMonomial hts _, foldConstants_of_constant hts hc⟩

/-! ### Simplifying a constant polynomial -/

/-- A polynomial has no divisions with sides to be treated. -/
lemma not_mem_treatedSides {e s : Expr} (he : e.isPolynomial = true) : s ∉ e.treatedSides := by
  induction e using Expr.induction with
  | negation e ih => exact ih ((hereditary_isPolynomial.negation e).1 he)
  | nary op a b rest ih =>
    rw [hereditary_isPolynomial.nary] at he
    rw [mem_treatedSides_nary]
    rintro ⟨t, ht, hst⟩
    exact ih t ht (he t ht) hst
  | division l r _ _ => exact absurd he not_isPolynomial_division
  | parentheses e ih => exact ih (isPolynomial_parentheses_iff.1 he)
  | _ => exact List.not_mem_nil

/-- A step of a constant polynomial gives its value. -/
lemma step_of_constant {e : Expr} (he : e.isPolynomial = true) {c : ℤ}
    (hc : ∀ ρ : String → ℚ, e.value ρ = c) : e.step = .ok (integer c) := by
  have hvalue : ∀ {e' : Expr}, Rewrites e e' → ∀ ρ : String → ℚ, e'.value ρ = c := by
    intro e' h ρ
    rw [(h.refines (defined_of_isPolynomial he ρ)).2, hc]
  have hflatten := (rewrites_flatten e).isPolynomial he
  obtain ⟨flat, hflat⟩ : ∃ flat,
      (resolveDivisions simplifyTraced e.flatten).Yields (fun _ => True) flat :=
    exists_resolveDivisions (isExact_of_isPolynomial hflatten) fun s hs =>
      absurd hs (not_mem_treatedSides hflatten)
  have hrewrites : Rewrites e flat := (rewrites_flatten e).trans
    (rewrites_of_yields_resolveDivisions (fun _ _ => rewrites_of_yields_simplifyTraced) hflat)
  have hpolynomial := hrewrites.isPolynomial he
  have hdivision := isDivision_of_isPolynomial hpolynomial
  have hexact := isExact_of_isPolynomial hpolynomial
  obtain ⟨direct, hdirect, -⟩ := exists_foldConstants (isDecimalFree_of_isExact hexact)
  obtain ⟨collected, hcollected, hfolded⟩ := exists_collect_of_constant
    (isMonomialSum_expand hpolynomial) (hvalue (hrewrites.trans (rewrites_expand flat)))
  have hbest : simplestOf direct [integer c] = integer c := by
    rw [simplestOf_singleton]
    split
    · rfl
    · next hnot =>
      have hone : direct.complexity ≤ 1 := Nat.le_of_not_lt hnot
      obtain ⟨k, rfl⟩ := (folded_of_foldConstants hexact hdirect).eq_integer hone
      rw [eq_of_rewrites_integer he hc (hrewrites.trans (rewrites_of_foldConstants hdirect))]
  refine Traced.yields_true_iff.1 ((yields_stepWith_iff_of_flat hflat hexact).2 ?_)
  rw [if_neg (by rw [hdivision]; exact Bool.false_ne_true)]
  refine ⟨direct, collected, integer c, hdirect, hcollected, hfolded, trivial, ?_⟩
  rw [hbest]
  rfl

/-- A polynomial is simplified to an integer that can be written exactly if it has this value at all
integers. -/
lemma simplify_eq_integer_of_constant {e : Expr} (he : e.isPolynomial = true) {c : ℤ}
    (hfits : Numeral.fits c = true) (hc : ∀ ρ : String → ℤ, e.value (fun s => ρ s) = c) :
    e.simplify = .ok (integer c) := by
  have hstep := step_of_constant he (value_eq_of_intCast he hc)
  have hfixed : (integer c).step = .ok (integer c) := step_of_constant rfl fun _ => rfl
  unfold simplify
  rw [simplifyTraced_eq_runWith]
  exact result_runWith_of_step rfl hfits hstep hfixed

/-- Simplification decides whether a polynomial is constant: it gives an integer that can be written
exactly if the polynomial has this value at all integers.  In particular it takes the difference of
two polynomials to zero exactly if they are equal. -/
theorem simplify_decides_constant :
    (∀ (e : Expr) (c : ℤ), e.isPolynomial = true → Numeral.fits c = true →
      (e.simplify = .ok (integer c) ↔ ∀ ρ : String → ℤ, e.value (fun s => ρ s) = c)) ∧
    ∀ a b : Expr, a.isPolynomial = true → b.isPolynomial = true →
      ((sum a (negation b) []).simplify = .ok (integer 0) ↔ a.polynomial = b.polynomial) := by
  have hconstant : ∀ (e : Expr) (c : ℤ), e.isPolynomial = true → Numeral.fits c = true →
      (e.simplify = .ok (integer c) ↔ ∀ ρ : String → ℤ, e.value (fun s => ρ s) = c) := by
    intro e c he hfits
    refine ⟨fun h ρ => ?_, simplify_eq_integer_of_constant he hfits⟩
    have hrewrites := rewrites_of_yields_simplifyTraced (Traced.yields_true_iff.2 h)
    have hvalue := (hrewrites.refines (defined_of_isPolynomial he fun s => (ρ s : ℚ))).2
    rw [← hvalue, value]
  refine ⟨hconstant, fun a b ha hb => ?_⟩
  have hdifference : (sum a (negation b) []).isPolynomial = true := by
    rw [hereditary_isPolynomial.nary, List.forall_mem_cons, List.forall_mem_singleton]
    exact ⟨ha, (hereditary_isPolynomial.negation b).2 hb⟩
  have hzero : Numeral.fits 0 = true := by decide +kernel
  rw [hconstant _ 0 hdifference hzero, polynomial_eq_iff ha hb]
  refine forall_congr' fun ρ => ?_
  rw [value_nary, AssocOp.total_sum, List.map_cons, List.map_singleton, List.sum_cons,
    List.sum_singleton, value, Int.cast_zero, ← sub_eq_add_neg, sub_eq_zero]

/-- For instance the difference of two squares, as a product and expanded. -/
theorem simplify_decides_constant_squares :
    (sum (product (sum (var "x") (integer 1) []) (sum (var "x") (integer (-1)) []) [])
      (negation (sum (product (var "x") (var "x") []) (integer 2) [])) []).simplify =
        .ok (integer (-3)) ∧
    (sum (product (sum (var "x") (var "y") []) (sum (var "x") (negation (var "y")) []) [])
      (negation (sum (product (var "x") (var "x") [])
        (negation (product (var "y") (var "y") [])) [])) []).simplify = .ok (integer 0) := by
  refine ⟨(simplify_decides_constant.1 _ (-3) rfl (by decide +kernel)).2 fun ρ => ?_,
    (simplify_decides_constant.2 _ _ rfl rfl).2 ?_⟩
  · simp only [value, values, AssocOp.total]
    simp only [List.sum_cons, List.sum_nil, List.prod_cons, List.prod_nil]
    push_cast
    ring
  · simp only [polynomial, polynomials, AssocOp.total]
    simp only [List.sum_cons, List.sum_nil, List.prod_cons, List.prod_nil]
    ring

end TermAlgebra.Expr
