import Mathlib.Tactic
import TermAlgebra.Proofs.LikeTerms

/-!
# Like monomials

No two terms have the same factors when a sum of monomials is collected and the result expanded and
folded, whatever factorization was chosen (`collect_merges_like`).

The outline of a collected sum tells which monomials it is expanded to.  Its sketch (`sketch`) is
the same, but has nothing for a zero, so that folding adds no monomials to it
(`covers_foldedForm`).  The invariant is that the sketch of a collected sum has one monomial for
each kind of term at most and no others (`OneEach`), and the induction is on the number of factors
(`oneEach_collectUpTo`).  If the sum is left as it is, it has no like terms, since otherwise it
would become simpler (`complexity_collectUpTo_of_like`).  If a factor is taken out, it multiplies
the monomials of the quotients and tells them from those of the other terms (`oneEach_recollect`).
-/

namespace TermAlgebra.Expr

open MvPolynomial

/-! ### Coefficients -/

/-- Whether no coefficient of one polynomial is less than that of another one. -/
def Covers (p q : MvPolynomial Expr ℕ) : Prop :=
  ∀ m, q.coeff m ≤ p.coeff m

namespace Covers

variable {p q p' q' r : MvPolynomial Expr ℕ}

/-- Every polynomial covers itself. -/
lemma refl (p : MvPolynomial Expr ℕ) : Covers p p :=
  fun _ => le_rfl

/-- What a covered polynomial covers is covered. -/
lemma trans (h : Covers p q) (h' : Covers q r) : Covers p r :=
  fun m => (h' m).trans (h m)

/-- Polynomials may be added. -/
lemma add (h : Covers p q) (h' : Covers p' q') : Covers (p + p') (q + q') := by
  intro m
  rw [coeff_add, coeff_add]
  exact Nat.add_le_add (h m) (h' m)

/-- Polynomials may be multiplied. -/
lemma mul (h : Covers p q) (h' : Covers p' q') : Covers (p * p') (q * q') := by
  classical
  intro m
  rw [coeff_mul, coeff_mul]
  exact Finset.sum_le_sum fun x _ => Nat.mul_le_mul (h x.1) (h' x.2)

/-- An operation may be done on polynomials that are covered one by one. -/
lemma total (op : AssocOp) {ps qs : List (MvPolynomial Expr ℕ)} (h : List.Forall₂ Covers ps qs) :
    Covers (op.total ps) (op.total qs) := by
  induction h with
  | nil => exact refl _
  | cons hfirst _ ih =>
    cases op with
    | sum =>
      rw [AssocOp.total_sum, AssocOp.total_sum, List.sum_cons, List.sum_cons]
      exact hfirst.add ih
    | product =>
      rw [AssocOp.total_product, AssocOp.total_product, List.prod_cons, List.prod_cons]
      exact hfirst.mul ih

/-- The same for quantities of the same terms. -/
lemma total_map (op : AssocOp) {f g : Expr → MvPolynomial Expr ℕ} {es : List Expr}
    (h : ∀ e ∈ es, Covers (f e) (g e)) : Covers (op.total (es.map f)) (op.total (es.map g)) := by
  refine total op ?_
  rw [List.forall₂_map_left_iff, List.forall₂_map_right_iff, List.forall₂_same]
  exact h

end Covers

/-! ### Folding adds no monomials -/

/-- The outline of an expression, or zero if the expression is zero. -/
noncomputable def sketch : Expr → MvPolynomial Expr ℕ
  | integer n => if n = 0 then 0 else 1
  | e => e.outline

/-- The sketch of an integer other than zero is one. -/
lemma sketch_integer (n : ℤ) : (integer n).sketch = if n = 0 then 0 else 1 := rfl

/-- The sketch of an expression other than zero is its outline. -/
lemma sketch_of_ne_zero {e : Expr} (h : e ≠ integer 0) : e.sketch = e.outline := by
  cases e with
  | integer n =>
    have hn : n ≠ 0 := by
      rintro rfl
      exact h rfl
    exact if_neg hn
  | _ => rfl

/-- An outline has coefficients of one at most if the sketch has. -/
lemma coeff_outline_le_one {e : Expr} (h : ∀ m, e.sketch.coeff m ≤ 1) (m : Expr →₀ ℕ) :
    e.outline.coeff m ≤ 1 := by
  classical
  by_cases hzero : e = integer 0
  · rw [hzero, outline, coeff_one]
    split_ifs <;> simp
  · rw [← sketch_of_ne_zero hzero]
    exact h m

/-- The sketch of a node without zeros is the result of the operation on those of its terms. -/
lemma sketch_ofTerms (op : AssocOp) {es : List Expr} (hne : es ≠ [])
    (h : ∀ t ∈ es, t ≠ integer 0) : (ofTerms op es).sketch = op.total (es.map sketch) := by
  match es, hne with
  | [t], _ => rw [ofTerms, List.map_singleton, AssocOp.total_singleton]
  | a :: b :: rest, _ =>
    have hsketch : (a :: b :: rest).map sketch = (a :: b :: rest).map outline :=
      List.map_congr_left fun t ht => sketch_of_ne_zero (h t ht)
    rw [hsketch, ← outline_nary]
    rfl

/-- The same for the terms of a folded tree. -/
lemma Folded.total_sketch {e : Expr} (h : Folded e) (op : AssocOp) :
    op.total ((e.terms op).map sketch) = e.sketch := by
  rcases eq_nary_or_not_isNary op e with ⟨a, b, rest, rfl⟩ | hnot
  · rw [terms_nary]
    exact (sketch_ofTerms op (List.cons_ne_nil _ _) h.ne_zero_of_mem).symm
  · rw [terms_of_not_isNary hnot, List.map_singleton, AssocOp.total_singleton]

/-- The same for an integer and other terms, unless they are a product that comes to zero. -/
lemma sketch_ofCondensed {op : AssocOp} {n : ℤ} {others : List Expr}
    (hothers : ∀ t ∈ others, t.isConstant = false)
    (hzero : op = .product → n = 0 → others = []) :
    (ofCondensed op (n, others)).sketch = op.total ((integer n :: others).map sketch) := by
  have hne : ∀ t ∈ others, t ≠ integer 0 := by
    rintro t ht rfl
    exact Bool.noConfusion (hothers _ ht)
  rw [ofCondensed]
  split
  · next hunit =>
    obtain ⟨hcons, rfl⟩ : others ≠ [] ∧ n = op.total [] := hunit
    rw [sketch_ofTerms op hcons hne, List.map_cons, AssocOp.total_cons]
    cases op with
    | sum => simp [sketch]
    | product => simp [sketch]
  · next hkept =>
    by_cases hn : n = 0
    · have hnil : others = [] := by
        cases op with
        | sum =>
          by_contra hcons
          exact hkept ⟨hcons, hn⟩
        | product => exact hzero rfl hn
      rw [hnil, List.map_singleton, AssocOp.total_singleton]
      rfl
    · refine sketch_ofTerms op (List.cons_ne_nil _ _) (List.forall_mem_cons.2 ⟨?_, hne⟩)
      exact fun hinteger => hn (integer.inj hinteger)

/-- The sketch of the result on some integers has no more than the result on their sketches. -/
lemma covers_integers (op : AssocOp) (ns : List ℤ) :
    Covers (op.total (ns.map fun n => (integer n).sketch)) (integer (op.total ns)).sketch := by
  induction ns with
  | nil => cases op <;> exact Covers.refl _
  | cons n ns ih =>
    rw [List.map_cons]
    cases op with
    | sum =>
      rw [AssocOp.total_sum, AssocOp.total_sum, List.sum_cons, List.sum_cons]
      refine ((Covers.refl _).add ih).trans ?_
      intro m
      rw [coeff_add, AssocOp.total_sum, sketch_integer, sketch_integer, sketch_integer]
      split_ifs <;> first | omega | simp
    | product =>
      rw [AssocOp.total_product, AssocOp.total_product, List.prod_cons, List.prod_cons]
      refine ((Covers.refl _).mul ih).trans ?_
      intro m
      rw [AssocOp.total_product, sketch_integer, sketch_integer, sketch_integer]
      simp only [mul_eq_zero]
      split_ifs <;> simp_all

/-- The sketch of folded terms has no more than the result of the operation on their sketches. -/
lemma covers_folded (op : AssocOp) {terms : List Expr} (hne : terms ≠ [])
    (h : ∀ t ∈ terms, t.isExact = true) :
    Covers (op.total (terms.map sketch)) (folded op terms).sketch := by
  rw [folded_eq_ofCondensed hne h, condensed]
  split
  · next hzero =>
    intro m
    have hsketch : (ofCondensed op (0, [])).sketch = 0 := by
      rw [ofCondensed, if_neg fun hunit => hunit.1 rfl, ofTerms, sketch_integer, if_pos rfl]
    rw [hsketch]
    exact Nat.zero_le _
  · next hnot =>
    have hothers : ∀ t ∈ terms.filter (fun e => !e.isConstant), t.isConstant = false := by
      intro t ht
      simpa using (List.mem_filter.1 ht).2
    rw [sketch_ofCondensed hothers fun hop hzero => absurd ⟨hop, hzero⟩ hnot, List.map_cons,
      AssocOp.total_cons, total_map_terms op sketch fun t ht => isDecimalFree_of_isExact (h t ht)]
    exact Covers.total op (.cons (covers_integers op _) (.cons (Covers.refl _) .nil))

/-- The sketch of a folded node has no more than the result of the operation on those of its folded
terms. -/
lemma covers_foldedForm_ofTerms (op : AssocOp) {es : List Expr} (hne : es ≠ [])
    (h : ∀ e ∈ es, e.isExact = true) :
    Covers (op.total (es.map fun e => e.foldedForm.sketch)) (ofTerms op es).foldedForm.sketch := by
  have hfolded := folded_map_foldedForm h
  have hmerged : merged op (es.map foldedForm) ≠ [] := merged_ne_nil op (by simpa using hne)
  have hcovers := covers_folded op hmerged fun t ht => (folded_merged hfolded t ht).1.isExact
  rw [total_map_merged fun e he => (hfolded e he).total_sketch op, List.map_map] at hcovers
  rw [foldedForm_ofTerms op hne h]
  exact hcovers

/-- The same for a node of two terms. -/
lemma covers_foldedForm_pair (op : AssocOp) {a b : Expr} (ha : a.isExact = true)
    (hb : b.isExact = true) :
    Covers (op.total [a.foldedForm.sketch, b.foldedForm.sketch])
      (nary op a b []).foldedForm.sketch :=
  covers_foldedForm_ofTerms op (List.cons_ne_nil a [b])
    (List.forall_mem_cons.2 ⟨ha, List.forall_mem_singleton.2 hb⟩)

/-- The sketch of a folded polynomial has no more than the outline of the polynomial. -/
lemma covers_foldedForm {e : Expr} (h : e.isPolynomial = true) :
    Covers e.outline e.foldedForm.sketch := by
  induction e using Expr.induction with
  | empty => exact Bool.noConfusion h
  | decimal d => exact Bool.noConfusion h
  | integer n =>
    intro m
    rw [(Folded.integer n).foldedForm_eq, sketch_integer, outline]
    split_ifs <;> simp
  | var s => exact Covers.refl _
  | negation e ih =>
    have he := (hereditary_isPolynomial.negation e).1 h
    have hexact := isExact_of_isPolynomial he
    have hcovers := covers_foldedForm_pair .product (a := integer (-1)) rfl hexact
    have hone : (integer (-1)).foldedForm.sketch = 1 := by
      rw [(Folded.integer (-1)).foldedForm_eq, sketch_integer, if_neg (by decide)]
    rw [AssocOp.total_product, List.prod_cons, List.prod_singleton, hone, one_mul] at hcovers
    rw [foldedForm_negation_eq_product hexact]
    exact (ih he).trans hcovers
  | nary op a b rest ih =>
    rw [hereditary_isPolynomial.nary] at h
    have hexact : ∀ t ∈ a :: b :: rest, t.isExact = true :=
      fun t ht => isExact_of_isPolynomial (h t ht)
    rw [outline_nary]
    exact (Covers.total_map op fun t ht => ih t ht (h t ht)).trans
      (covers_foldedForm_ofTerms op (List.cons_ne_nil _ _) hexact)
  | division l r _ _ => exact absurd h not_isPolynomial_division
  | parentheses e ih =>
    have he := isPolynomial_parentheses_iff.1 h
    rw [foldedForm_parentheses (isExact_of_isPolynomial he)]
    exact ih he

/-! ### One monomial for each kind of term -/

/-- Whether a polynomial has every monomial once at most, and only such as the terms of a list
have. -/
structure OneEach (ts : List Expr) (p : MvPolynomial Expr ℕ) : Prop where
  coeff_le_one (m : Expr →₀ ℕ) : p.coeff m ≤ 1
  exists_term {m : Expr →₀ ℕ} : p.coeff m ≠ 0 → ∃ t ∈ ts, t.exponents = m

namespace OneEach

variable {ts us : List Expr} {p q : MvPolynomial Expr ℕ}

/-- Monomials may be left out, and terms may be added. -/
lemma mono (h : OneEach ts p) (hcovers : Covers p q) (hsub : ∀ t ∈ ts, t ∈ us) : OneEach us q := by
  refine ⟨fun m => (hcovers m).trans (h.coeff_le_one m), ?_⟩
  intro m hm
  have hne : p.coeff m ≠ 0 := by
    have hle := hcovers m
    omega
  obtain ⟨t, ht, hexponents⟩ := h.exists_term hne
  exact ⟨t, hsub t ht, hexponents⟩

/-- Terms of different kinds have different monomials. -/
lemma add (hp : OneEach ts p) (hq : OneEach us q)
    (hdisjoint : ∀ t ∈ ts, ∀ u ∈ us, t.exponents ≠ u.exponents) : OneEach (ts ++ us) (p + q) := by
  constructor
  · intro m
    have hple := hp.coeff_le_one m
    have hqle := hq.coeff_le_one m
    rw [coeff_add]
    by_contra hless
    obtain ⟨t, ht, htm⟩ := hp.exists_term (m := m) (by omega)
    obtain ⟨u, hu, hum⟩ := hq.exists_term (m := m) (by omega)
    exact hdisjoint t ht u hu (htm.trans hum.symm)
  · intro m hm
    rw [coeff_add] at hm
    by_cases hpm : p.coeff m = 0
    · obtain ⟨u, hu, hum⟩ := hq.exists_term (m := m) (by omega)
      exact ⟨u, List.mem_append_right _ hu, hum⟩
    · obtain ⟨t, ht, htm⟩ := hp.exists_term hpm
      exact ⟨t, List.mem_append_left _ ht, htm⟩

/-- Multiplying by the monomial of a term multiplies all terms by it. -/
lemma imprint_mul (h : OneEach us q) (f : Expr)
    (hts : ∀ u ∈ us, ∃ t ∈ ts, t.exponents = f.exponents + u.exponents) :
    OneEach ts (f.imprint * q) := by
  rw [imprint_eq_monomial]
  constructor
  · intro m
    rw [coeff_monomial_mul']
    split_ifs
    · rw [one_mul]
      exact h.coeff_le_one _
    · exact Nat.zero_le 1
  · intro m hm
    rw [coeff_monomial_mul'] at hm
    split_ifs at hm with hle
    · rw [one_mul] at hm
      obtain ⟨u, hu, hum⟩ := h.exists_term hm
      obtain ⟨t, ht, htm⟩ := hts u hu
      refine ⟨t, ht, ?_⟩
      rw [htm, hum, add_tsub_cancel_of_le hle]
    · exact absurd rfl hm

end OneEach

/-- No two terms have the same factors if every monomial comes up once at most. -/
lemma likeFree_of_coeff_le_one {ts : List Expr} (h : ∀ m, (ts.map imprint).sum.coeff m ≤ 1) :
    LikeFree ts := by
  classical
  rw [LikeFree, List.pairwise_iff_forall_sublist]
  intro t u hsub hperm
  have hle := h t.exponents
  have hcount : [t, u].countP (fun v => v.exponents = t.exponents) ≤
      ts.countP fun v => v.exponents = t.exponents := hsub.countP_le
  rw [List.countP_cons_of_pos (by simp),
    List.countP_cons_of_pos (by simp [exponents_eq_iff.2 hperm.symm])] at hcount
  rw [coeff_sum_imprint] at hle
  omega

/-! ### Folding monomials -/

/-- A monomial is folded to a monomial. -/
lemma isMonomial_foldedForm {t : Expr} (ht : t.isMonomial = true) :
    t.foldedForm.isMonomial = true := by
  have hatoms := isMonomial_iff.1 ht
  have hterms : ∀ a ∈ t.terms .product, a.isExact = true ∧ a.isNary .product = false :=
    fun a ha => ⟨(folded_of_isAtom (hatoms a ha)).isExact, isNary_of_isAtom (hatoms a ha)⟩
  rw [foldedForm_of_isMonomial ht, ← folded_eq_ofCondensed (terms_ne_nil .product t)
    fun a ha => (hterms a ha).1, isMonomial_iff]
  intro a ha
  rcases mem_terms_folded (terms_ne_nil .product t) hterms ha with ⟨n, rfl⟩ | ha
  · rfl
  · exact hatoms a ha

/-- A sum of monomials is folded to one. -/
lemma isMonomialSum_foldedForm {e : Expr} (he : e.isMonomialSum = true) :
    e.foldedForm.isMonomialSum = true := by
  have hmonomials := isMonomialSum_iff.1 he
  have hform := foldedForm_sum_of_isTerm (terms_ne_nil .sum e)
    fun t ht => isTerm_of_isMonomial (hmonomials t ht)
  have hforms : ∀ u ∈ (e.terms .sum).map foldedForm, u.isMonomial = true :=
    List.forall_mem_map.2 fun t ht => isMonomial_foldedForm (hmonomials t ht)
  have hne : (e.terms .sum).map foldedForm ≠ [] := by simpa using terms_ne_nil .sum e
  rw [ofTerms_terms] at hform
  rw [hform, isMonomialSum_iff]
  intro u hu
  rcases mem_terms_folded hne (fun u hu => ⟨isExact_of_isMonomial (hforms u hu),
    isNary_of_isMonomial (hforms u hu)⟩) hu with ⟨n, rfl⟩ | hu
  · rfl
  · exact hforms u hu

/-- Folding leaves the factors of a monomial, or nothing if there is a zero among them. -/
lemma covers_monomial {t : Expr} (ht : t.isMonomial = true) :
    Covers (if t.signature.1 ≠ 0 then t.imprint else 0) t.foldedForm.sketch := by
  split
  · rw [← outline_of_isMonomial ht]
    exact covers_foldedForm (isPolynomial_of_isMonomial ht)
  · next hdead =>
    rw [(isTerm_of_isMonomial ht).foldedForm_eq_zero (not_ne_iff.1 hdead)]
    exact Covers.refl _

/-- No constant is left of a monomial that is not folded to one. -/
lemma coeff_zero_sketch {t : Expr} (ht : t.isMonomial = true)
    (hconstant : t.foldedForm.isConstant = false) : t.foldedForm.sketch.coeff 0 = 0 := by
  classical
  have hcovers := covers_monomial ht 0
  by_cases hlive : t.signature.1 = 0
  · rw [if_neg (not_ne_iff.2 hlive)] at hcovers
    exact Nat.le_zero.1 hcovers
  · rw [(isTerm_of_isMonomial ht).isConstant_foldedForm hlive,
      List.isEmpty_eq_false_iff] at hconstant
    have hne : t.exponents ≠ 0 := fun hzero => hconstant (exponents_eq_zero_iff.1 hzero)
    rw [if_pos hlive, imprint_eq_monomial, coeff_monomial, if_neg hne] at hcovers
    exact Nat.le_zero.1 hcovers

section Sums

variable {ts : List Expr} (hne : ts ≠ []) (hts : ∀ t ∈ ts, t.isMonomial = true)

include hne hts

/-- Folding a sum of monomials leaves no other monomials than those without a zero. -/
lemma covers_sum_of_isMonomial :
    Covers ((ts.filter fun t => t.signature.1 ≠ 0).map imprint).sum
      (ofTerms .sum ts).foldedForm.sketch := by
  have hexact : ∀ t ∈ ts, t.isExact = true := fun t ht => isExact_of_isMonomial (hts t ht)
  have hterms := Covers.total_map .sum fun t ht => covers_monomial (hts t ht)
  rw [AssocOp.total_sum, List.sum_map_ite, List.map_const', List.sum_replicate, smul_zero,
    add_zero] at hterms
  exact hterms.trans (covers_foldedForm_ofTerms .sum hne hexact)

/-- Folding a sum of monomials leaves one constant at most. -/
lemma coeff_zero_sketch_sum_le_one : (ofTerms .sum ts).foldedForm.sketch.coeff 0 ≤ 1 := by
  have hterms : ∀ t ∈ ts, IsTerm t := fun t ht => isTerm_of_isMonomial (hts t ht)
  have hforms : ∀ u ∈ ts.map foldedForm, u.isExact = true :=
    fun u hu => (folded_map_foldedForm (isExact_of_isTerm hterms) u hu).isExact
  have hconstant : ∀ u ∈ (ts.map foldedForm).filter (fun e => !e.isConstant),
      u.isConstant = false := by
    intro u hu
    simpa using (List.mem_filter.1 hu).2
  have hothers : (((ts.map foldedForm).filter fun e => !e.isConstant).map sketch).sum.coeff 0 =
      0 := by
    rw [← coeffAddMonoidHom_apply, map_list_sum, List.map_map]
    refine List.sum_eq_zero (List.forall_mem_map.2 fun u hu => ?_)
    obtain ⟨t, ht, rfl⟩ := List.mem_map.1 (List.mem_filter.1 hu).1
    exact coeff_zero_sketch (hts t ht) (hconstant _ hu)
  rw [foldedForm_sum_of_isTerm hne hterms, folded_eq_ofCondensed (by simpa using hne) hforms,
    condensed, if_neg (by simp), sketch_ofCondensed hconstant AssocOp.noConfusion,
    AssocOp.total_sum, List.map_cons, List.sum_cons, coeff_add, hothers, sketch_integer]
  split_ifs <;> simp

/-- Folding a sum of monomials without like ones leaves one monomial for each kind of term. -/
lemma oneEach_sum (hlike : ¬ HasLiveLike ts) : OneEach ts (ofTerms .sum ts).foldedForm.sketch := by
  classical
  have hcovers := covers_sum_of_isMonomial hne hts
  constructor
  · intro m
    by_cases hm : m = 0
    · rw [hm]
      exact coeff_zero_sketch_sum_le_one hne hts
    · by_contra hless
      have htwo : 2 ≤ (ofTerms .sum ts).foldedForm.sketch.coeff m := by omega
      have hrepeated : Repeated 2 ((ts.filter fun t => t.signature.1 ≠ 0).map imprint).sum :=
        ⟨m, hm, htwo.trans (hcovers m)⟩
      exact hlike hrepeated.hasLike
  · intro m hm
    have hpos := Nat.lt_of_lt_of_le (Nat.pos_of_ne_zero hm) (hcovers m)
    rw [coeff_sum_imprint, List.countP_pos_iff] at hpos
    obtain ⟨t, ht, htm⟩ := hpos
    exact ⟨t, (List.mem_filter.1 ht).1, of_decide_eq_true htm⟩

end Sums

/-! ### Recollected factorizations -/

section Candidates

variable {ts : List Expr} (hts : ∀ t ∈ ts, t.isMonomial = true) {f : Expr}
  (hf : f ∈ factorsAll ts)

include hts hf

/-- What is taken out of monomials is one itself. -/
lemma isMonomial_factor : (factorizationBy f ts).factor.isMonomial = true := by
  have hatoms : ∀ g ∈ (companionPowers f ts).elements, g.isAtom = true := by
    intro g hg
    obtain ⟨s, rfl⟩ := exists_var_of_mem_companionPowers hts hg
    rfl
  have hmem := mem_eraseDups_factorsAll (isDecimalFree_of_isMonomial hts) hf
  rw [factorizationBy, gather_of_isAtom hatoms]
  exact isMonomial_ofTerms (elements_companionPowers_ne_nil hmem) hatoms

/-- The product of what is taken out and the collected quotients has one monomial for each kind of
term with the factor, if these have one for each kind of quotient. -/
lemma oneEach_product {cofactor : Expr} (hexact : cofactor.isExact = true)
    (h : OneEach ((holders f ts).map fun t => t.divideOut (companionPowers f ts))
      cofactor.foldedForm.sketch) :
    OneEach (holders f ts)
      (join .product (factorizationBy f ts).factor cofactor).foldedForm.sketch := by
  have hfactor := isMonomial_factor hts hf
  have hcovers := covers_foldedForm_pair .product (isExact_of_isMonomial hfactor) hexact
  rw [← foldedForm_join .product (isExact_of_isMonomial hfactor) hexact, AssocOp.total_product,
    List.prod_cons, List.prod_singleton] at hcovers
  have hmonomial := covers_foldedForm (isPolynomial_of_isMonomial hfactor)
  rw [outline_of_isMonomial hfactor] at hmonomial
  have hmul : OneEach (holders f ts)
      ((factorizationBy f ts).factor.imprint * cofactor.foldedForm.sketch) := by
    refine h.imprint_mul _ (List.forall_mem_map.2 fun t ht => ⟨t, ht, ?_⟩)
    exact exponents_of_mem_holders (isDecimalFree_of_isMonomial hts) f ht
  exact hmul.mono ((hmonomial.mul (Covers.refl _)).trans hcovers) fun t ht => ht

/-- A recollected factorization has one monomial for each kind of term, if its collected parts
have. -/
lemma oneEach_recollect {size : ℕ} {r : Expr}
    (hparts : ∀ {us : List Expr} {e : Expr}, us ≠ [] → (∀ u ∈ us, u.isMonomial = true) →
      (factorsAll us).length < (factorsAll ts).length →
        collectUpTo size (ofTerms .sum us) = .ok e → OneEach us e.foldedForm.sketch)
    (h : recollect (collectUpTo size) (factorizationBy f ts) = .ok r) :
    OneEach ts r.sketch := by
  have hexact : ∀ t ∈ ts, t.isExact = true := fun t ht => isExact_of_isMonomial (hts t ht)
  have hholders : ∀ t ∈ holders f ts, t ∈ ts := fun t ht => (List.mem_filter.1 ht).1
  have hothers : ∀ t ∈ others f ts, t ∈ ts := fun t ht => (List.mem_filter.1 ht).1
  obtain ⟨v, rfl⟩ : ∃ v, f = var v := by
    obtain ⟨t, ht, hft⟩ := mem_factorsAll.1 hf
    exact ((mem_factors_of_isMonomial (hts t ht)).1 hft).2
  have hlength := length_factorsAll_quotients_lt hts hf
  have hadd := length_factorsAll_holders_add (var v) ts
  obtain ⟨cofactor, hcofactor, hcexact, hcases⟩ := exists_parts_of_recollect hexact hf h
  have hquotients : ∀ u ∈ (holders (var v) ts).map fun t =>
      t.divideOut (companionPowers (var v) ts), u.isMonomial = true :=
    List.forall_mem_map.2 fun t ht => isMonomial_divideOut (hts t (hholders t ht)) _
  rw [factorizationBy, gather_of_isMonomial hquotients] at hcofactor
  have hproduct := oneEach_product hts hf hcexact
    (hparts (by simpa using holders_ne_nil hf) hquotients (by omega) hcofactor)
  rcases hcases with ⟨-, rfl⟩ | ⟨hne, remainder, hremainder, hrexact, rfl⟩
  · exact hproduct.mono (Covers.refl _) hholders
  · have hrest := hparts hne (fun t ht => hts t (hothers t ht)) (by omega) hremainder
    have hjoin := (hereditary_isExact.join .product _ cofactor).2
      ⟨isExact_of_isMonomial (isMonomial_factor hts hf), hcexact⟩
    have hcovers := covers_foldedForm_pair .sum hjoin hrexact
    rw [AssocOp.total_sum, List.sum_cons, List.sum_singleton] at hcovers
    -- The variable tells the terms that have it from the others.
    have hdisjoint : ∀ t ∈ holders (var v) ts, ∀ u ∈ others (var v) ts,
        t.exponents ≠ u.exponents := by
      intro t ht u hu hsame
      have hfree := isDecimalFree_of_isMonomial hts
      have hvt := ((mem_holders hfree hf).1 ht).2
      exact ((mem_others hfree hf).1 hu).2 ((exponents_eq_iff.1 hsame).subset hvt)
    refine (hproduct.add hrest hdisjoint).mono hcovers fun t ht => ?_
    exact (List.mem_append.1 ht).elim (hholders t) (hothers t)

end Candidates

/-! ### Collected sums -/

/-- A sum of monomials is collected to its folded terms or to a recollected factorization. -/
lemma collectUpTo_cases {size : ℕ} {a b r : Expr} {rest : List Expr}
    (hts : ∀ t ∈ a :: b :: rest, t.isMonomial = true)
    (h : collectUpTo (size + 1) (sum a b rest) = .ok r) :
    r = (sum a b rest).foldedForm ∨ ∃ f ∈ factorsAll (a :: b :: rest),
      recollect (collectUpTo size) (factorizationBy f (a :: b :: rest)) = .ok r := by
  obtain ⟨es, hes, hr⟩ := collectWith_sum_eq_ok_iff.1 h
  obtain rfl : a :: b :: rest = es := by
    rw [← List.forall₂_eq_eq_eq]
    refine forall₂_of_forall (fun t ht t' ht' => ?_) hes
    exact Except.ok.inj ((collectUpTo_of_isMonomial (hts t ht) (size + 1)).symm.trans ht')
  obtain ⟨plain, candidates, hplain, hcandidates, rfl⟩ := collectSum_eq_ok_iff.1 hr
  rcases List.mem_cons.1 (simplestOf_mem plain candidates) with hmem | hmem
  · rw [gather_of_isMonomial hts] at hplain
    exact Or.inl (hmem.trans (foldedForm_of_foldConstants hplain).symm)
  · obtain ⟨F, hF, hrecollect⟩ := exists_mem_of_forall₂ hcandidates.flip hmem
    obtain ⟨f, hf, rfl⟩ := mem_factorizationsOf.1 (List.mem_filter.1 hF).1
    exact Or.inr ⟨f, mem_of_mem_eraseDups hf, hrecollect⟩

/-- Collecting a sum of monomials leaves one monomial for each kind of term, if as many levels are
allowed as there are factors. -/
lemma oneEach_collectUpTo {size : ℕ} {ts : List Expr} (hne : ts ≠ [])
    (hts : ∀ t ∈ ts, t.isMonomial = true) (hsize : (factorsAll ts).length < size) {r : Expr}
    (h : collectUpTo size (ofTerms .sum ts) = .ok r) : OneEach ts r.foldedForm.sketch := by
  induction size generalizing ts r with
  | zero => exact absurd hsize (Nat.not_lt_zero _)
  | succ size ih =>
    match ts, hne with
    | [t], _ =>
      rw [ofTerms, collectUpTo_of_isMonomial (hts t List.mem_cons_self), Except.ok.injEq] at h
      rw [← h]
      refine oneEach_sum (List.cons_ne_nil t []) hts ?_
      rintro ⟨u, v, hsub, -, -⟩
      exact absurd (hsub.trans List.filter_sublist).length_le (Nat.not_succ_le_self 1)
    | a :: b :: rest, _ =>
      have hexact : (sum a b rest).isExact = true :=
        (hereditary_isExact.nary .sum a b rest).2 fun t ht => isExact_of_isMonomial (hts t ht)
      rw [(folded_of_collectUpTo hexact h).foldedForm_eq]
      rcases collectUpTo_cases hts h with rfl | ⟨f, hf, hrecollect⟩
      · -- The terms are only left as they are if there are no like ones.
        refine oneEach_sum (List.cons_ne_nil _ _) hts fun hlike => ?_
        have hsimpler := complexity_collectUpTo_of_like (fun t ht => .monomial (hts t ht)) hlike h
        omega
      · refine oneEach_recollect hts hf ?_ hrecollect
        exact fun hne hus hlt hcollect => ih hne hus (by omega) hcollect

/-! ### Expanding and folding what is collected -/

/-- Whatever factorization of a sum of monomials is chosen, no two terms have the same factors when
the collected sum is expanded and folded. -/
theorem collect_merges_like {a b : Expr} {rest : List Expr}
    (hts : ∀ t ∈ a :: b :: rest, t.isMonomial = true) :
    ∃ r c, collect (sum a b rest) = .ok r ∧ foldConstants r.expand = .ok c ∧
      c.isMonomialSum = true ∧ LikeFree (c.terms .sum) ∧
        c.polynomial = (sum a b rest).polynomial := by
  have hpolynomial : (sum a b rest).isPolynomial = true :=
    (hereditary_isPolynomial.nary .sum a b rest).2 fun t ht => isPolynomial_of_isMonomial (hts t ht)
  have hexact := isExact_of_isPolynomial hpolynomial
  obtain ⟨r, hr, -⟩ :=
    exists_collectUpTo (sum a b rest).openSize _ (isDecimalFree_of_isExact hexact)
  have hcollected := rewrites_of_collectUpTo hr
  have hexpanded := hcollected.trans (rewrites_expand r)
  have hmonomials := isMonomialSum_expand (hcollected.isPolynomial hpolynomial)
  have hfold := foldConstants_eq_foldedForm (hexpanded.isExact hexact)
  have hrewrites := hexpanded.trans (rewrites_of_foldConstants hfold)
  have hfolded : Folded r := folded_of_collectUpTo hexact hr
  have hone := oneEach_collectUpTo (List.cons_ne_nil _ _) hts
    (length_factorsAll_lt_openSize a b rest) hr
  rw [hfolded.foldedForm_eq] at hone
  have hform := isMonomialSum_foldedForm hmonomials
  refine ⟨r, _, hr, hfold, hform, likeFree_of_coeff_le_one fun m => ?_, ?_⟩
  · have houtline : r.expand.outline = r.outline := by
      rw [← sum_imprint_terms hmonomials, hfolded.expands.outline]
    have hcovers := covers_foldedForm (hexpanded.isPolynomial hpolynomial)
    rw [houtline] at hcovers
    rw [sum_imprint_terms hform]
    refine coeff_outline_le_one (fun m => (hcovers m).trans ?_) m
    exact coeff_outline_le_one hone.coeff_le_one m
  · rw [polynomial_eq_iff (hrewrites.isPolynomial hpolynomial) hpolynomial]
    intro ρ
    exact (hrewrites.refines (defined_of_isPolynomial hpolynomial _)).2

/-- For instance a sum of which a variable is taken out, with terms that cancel out, a zero and a
factor one. -/
theorem collect_merges_like_factored :
    collect (sum (product (integer 3) (var "x") [var "y"]) (product (integer 2) (var "x") [var "z"])
      [product (var "y") (integer 1) [var "x"], product (integer 0) (var "z") [],
        product (integer 5) (var "w") [], product (integer (-5)) (var "w") []]) =
        .ok (product (var "x") (sum (product (integer 4) (var "y") [])
          (product (integer 2) (var "z") []) []) []) ∧
      LikeFree [product (integer 4) (var "x") [var "y"],
        product (integer 2) (var "x") [var "z"]] := by
  have hts : ∀ t ∈ [product (integer 3) (var "x") [var "y"],
      product (integer 2) (var "x") [var "z"], product (var "y") (integer 1) [var "x"],
      product (integer 0) (var "z") [], product (integer 5) (var "w") [],
      product (integer (-5)) (var "w") []], t.isMonomial = true := by decide
  obtain ⟨r, c, hr, hc, -, hfree, -⟩ := collect_merges_like hts
  obtain rfl : product (var "x") (sum (product (integer 4) (var "y") [])
      (product (integer 2) (var "z") []) []) [] = r :=
    Except.ok.inj ((eq_ok_of_returns rfl (by decide +kernel)).symm.trans hr)
  obtain rfl : sum (product (integer 4) (var "x") [var "y"])
      (product (integer 2) (var "x") [var "z"]) [] = c :=
    Except.ok.inj ((eq_ok_of_returns rfl (by decide +kernel)).symm.trans hc)
  exact ⟨hr, hfree⟩

end TermAlgebra.Expr
