import Mathlib.Tactic
import TermAlgebra.Proofs.Alike
import TermAlgebra.Proofs.Lightening

/-!
# Collecting merges like terms

A sum with like terms, which have the same factors, becomes simpler by at least two when it is
collected, if its terms are those of an expanded tree (`Expanded.complexity_collect_of_like`) or
monomials (`complexity_collectUpTo_of_like`).

One of the candidates takes a factor of the like terms out of all terms that have it, together with
its companions (`factorizationBy`).  What is taken out counts for `factorWeight`, at least three, in
each of these terms but for once in the candidate (`weight_recollect_le`).  The candidate may need
one joint more for it, and the quotients that are integers cost what a mere integer counts for.
Like terms have two quotients that are integers, which become one, or two that are none, and in both
cases the balance is at least two (`balance_of_two_le`).

A monomial with a factor zero is folded to zero, and so are its quotients.  It counts for nothing,
before and after, so that only the other terms with the factor (`liveHolders`) are balanced.
-/

namespace TermAlgebra.Expr

/-! ### Addends -/

/-- The terms of sums that are collected: those of expanded trees, and monomials, in which a zero
may occur. -/
inductive Addend (t : Expr) : Prop
  | part : PartOf .sum t → Addend t
  | monomial : t.isMonomial = true → Addend t

/-- Addends are products of factors. -/
lemma Addend.isTerm {t : Expr} (h : Addend t) : IsTerm t := by
  cases h with
  | part h => exact h.isTerm
  | monomial h => exact isTerm_of_isMonomial h

/-- Quotients of addends are addends. -/
lemma Addend.divideOut {t : Expr} (h : Addend t) (powers : Powers) :
    Addend (t.divideOut powers) := by
  cases h with
  | part h => exact .part (h.divideOut powers)
  | monomial h => exact .monomial (isMonomial_divideOut h powers)

/-- Collecting relaxes addends. -/
lemma Addend.relaxes {t r : Expr} (h : Addend t) {size : ℕ} (hr : collectUpTo size t = .ok r) :
    Relaxes t r := by
  cases h with
  | part h => exact (h.expanded.lightens_of_collectUpTo hr).2 h.not_sum
  | monomial h =>
    rw [collectUpTo_of_isMonomial h, Except.ok.injEq] at hr
    exact relaxes_of_foldedForm_eq (isExact_of_isMonomial h) (hr ▸ rfl)

/-- Collecting a sum of addends does not burden it. -/
lemma lightens_of_addends {ts : List Expr} (hne : ts ≠ []) (hts : ∀ t ∈ ts, Addend t) {size : ℕ}
    {r : Expr} (h : collectUpTo size (ofTerms .sum ts) = .ok r) : Lightens (ofTerms .sum ts) r := by
  have hexact : ∀ t ∈ ts, t.isExact = true := fun t ht => (hts t ht).isTerm.isExact
  have hsum := (hereditary_isExact.ofTerms .sum hne).2 hexact
  cases size with
  | zero =>
    obtain rfl := Except.ok.inj h
    exact (relaxes_of_foldedForm_eq hsum rfl).lightens hsum
  | succ size =>
    match ts, hne with
    | [t], _ => exact ((hts t List.mem_cons_self).relaxes h).lightens hsum
    | a :: b :: rest, _ =>
      exact lightens_of_collectUpTo_sum hexact (fun t ht t' ht' => (hts t ht).relaxes ht') h

/-! ### Quotients of terms -/

/-- A term in a sum counts for one more than in a product. -/
lemma weight_sum (e : Expr) : e.weight .sum = e.weight .product + 1 := rfl

/-- A folded term without a zero counts for its folded factors, and for an integer unless this is
one. -/
lemma IsTerm.weight_foldedForm {t : Expr} (h : IsTerm t) (hlive : t.signature.1 ≠ 0) :
    t.foldedForm.weight .product = (t.factors.map fun f => f.foldedForm.weight .product).sum +
      if t.factors ≠ [] ∧ t.signature.1 = 1 then 0 else 2 := by
  rw [h.foldedForm_eq hlive, weight_ofCondensed, List.map_map]
  simp only [ne_eq, List.map_eq_nil_iff]
  rfl

section Quotients

variable {ts : List Expr} (hts : ∀ t ∈ ts, IsTerm t) (f : Expr)

/-- The terms that have a factor and no zero. -/
def liveHolders (f : Expr) (ts : List Expr) : List Expr :=
  (holders f ts).filter fun t => t.signature.1 ≠ 0

/-- The folded quotients of the terms that have a factor and no zero. -/
def quotientForms (f : Expr) (ts : List Expr) : List Expr :=
  (liveHolders f ts).map fun t => (t.divideOut (companionPowers f ts)).foldedForm

/-- The terms that have a factor and no zero. -/
lemma mem_liveHolders {f t : Expr} {ts : List Expr} :
    t ∈ liveHolders f ts ↔ t ∈ holders f ts ∧ t.signature.1 ≠ 0 := by
  rw [liveHolders, List.mem_filter, decide_eq_true_iff]

/-- Each term that has the factor and no zero has a quotient, which is an integer or none. -/
lemma length_liveHolders (f : Expr) (ts : List Expr) :
    (liveHolders f ts).length = ((quotientForms f ts).filter isConstant).length +
      ((quotientForms f ts).filter fun e => !e.isConstant).length := by
  rw [← List.length_eq_length_filter_add, quotientForms, List.length_map]

/-- What the factors count for that are taken out together with a given one. -/
def factorWeight (f : Expr) (ts : List Expr) : ℕ :=
  ((companionPowers f ts).elements.map fun g => g.foldedForm.weight .product).sum

include hts

/-- Products of factors have no decimals. -/
lemma isDecimalFree_of_isTerm : ∀ t ∈ ts, t.isDecimalFree = true :=
  fun t ht => isDecimalFree_of_isExact (hts t ht).isExact

/-- The quotients of the terms that have the factor are products of factors. -/
lemma isTerm_quotients :
    ∀ u ∈ (holders f ts).map fun t => t.divideOut (companionPowers f ts), IsTerm u :=
  List.forall_mem_map.2 fun t ht => (hts t (List.mem_filter.1 ht).1).divideOut _

/-- A quotient has the same integers as the term. -/
lemma signature_quotient {t : Expr} (ht : t ∈ ts) :
    (t.divideOut (companionPowers f ts)).signature.1 = t.signature.1 := by
  rw [signature_divideOut (hts t ht).isExact (hts t ht).integer_or_whole
    (wellFormed_companionPowers (isDecimalFree_of_isTerm hts) f)]

/-- A term that has the factor and no zero counts for what is taken out and its quotient, if this is
no integer, and for one more than what is taken out in any case. -/
lemma weight_of_mem_liveHolders {t : Expr} (ht : t ∈ liveHolders f ts) :
    factorWeight f ts + 1 ≤ t.foldedForm.weight .sum ∧
      ((t.divideOut (companionPowers f ts)).foldedForm.isConstant = false →
        factorWeight f ts + (t.divideOut (companionPowers f ts)).foldedForm.weight .sum ≤
          t.foldedForm.weight .sum) := by
  obtain ⟨ht, hlive⟩ := mem_liveHolders.1 ht
  have hmem := (List.mem_filter.1 ht).1
  have hquotient := (hts t hmem).divideOut (companionPowers f ts)
  have hsignature := signature_quotient hts f hmem
  have hperm := factors_perm_of_mem_holders (isDecimalFree_of_isTerm hts) f ht
  have hsum := (hperm.map fun g => g.foldedForm.weight .product).sum_eq
  rw [List.map_append, List.sum_append] at hsum
  have hlive' : (t.divideOut (companionPowers f ts)).signature.1 ≠ 0 := hsignature ▸ hlive
  rw [weight_sum, (hts t hmem).weight_foldedForm hlive, hsum, weight_sum,
    hquotient.weight_foldedForm hlive', hsignature, factorWeight]
  refine ⟨by omega, fun hconstant => ?_⟩
  -- Both have the same integer, and it is left out of both or of none.
  have hfactors : (t.divideOut (companionPowers f ts)).factors ≠ [] := by
    rw [hquotient.isConstant_foldedForm hlive', List.isEmpty_eq_false_iff] at hconstant
    exact hconstant
  have hsame : (t.factors ≠ [] ∧ t.signature.1 = 1) ↔
      ((t.divideOut (companionPowers f ts)).factors ≠ [] ∧ t.signature.1 = 1) := by
    refine and_congr_left fun _ => iff_of_true (fun hnil => hfactors ?_) hfactors
    rw [hnil] at hperm
    exact (List.append_eq_nil_iff.1 hperm.nil_eq.symm).2
  simp only [hsame]
  omega

/-- What is taken out counts for three at least. -/
lemma three_le_factorWeight (hf : f ∈ factorsAll ts) : 3 ≤ factorWeight f ts := by
  obtain ⟨t, ht, hft⟩ := mem_factorsAll.1 hf
  obtain ⟨hfactor, hconstant, -⟩ := (hts t ht).of_mem_factors hft
  have hmem := mem_elements_companionPowers hf
    (mem_companions_self (mem_eraseDups_factorsAll (isDecimalFree_of_isTerm hts) hf))
  have htwo : 2 ≤ f.foldedForm.complexity := by
    by_contra hless
    obtain ⟨n, hn⟩ := (folded_foldedForm hfactor.isExact).eq_integer (by omega)
    rw [hn] at hconstant
    exact Bool.noConfusion hconstant
  calc 3 ≤ f.foldedForm.weight .product := Nat.add_le_add_right htwo 1
    _ ≤ factorWeight f ts := List.single_le_sum (fun _ _ => Nat.zero_le _) _
        (List.mem_map_of_mem (f := fun g => g.foldedForm.weight .product) hmem)

end Quotients

/-! ### The balance of a factorization -/

/-- Terms that count for a common amount and their quotients, if these are no integers, and for one
more than the amount in any case, count for all of this together. -/
lemma sum_weight_quotients_le {amount : ℕ} {quotient : Expr → Expr} {ts : List Expr}
    (h : ∀ t ∈ ts, amount + 1 ≤ t.foldedForm.weight .sum ∧
      ((quotient t).foldedForm.isConstant = false →
        amount + (quotient t).foldedForm.weight .sum ≤ t.foldedForm.weight .sum)) :
    amount * ts.length +
        (((ts.map fun t => (quotient t).foldedForm).filter fun e => !e.isConstant).map
          (weight .sum)).sum +
        ((ts.map fun t => (quotient t).foldedForm).filter isConstant).length ≤
      ((ts.map foldedForm).map (weight .sum)).sum := by
  induction ts with
  | nil => exact le_rfl
  | cons t ts ih =>
    obtain ⟨⟨hconst, hother⟩, hts⟩ := List.forall_mem_cons.1 h
    have hrest := ih hts
    simp only [List.map_cons, List.sum_cons, List.length_cons, Nat.mul_succ]
    by_cases hconstant : (quotient t).foldedForm.isConstant = true
    · rw [List.filter_cons_of_neg (by rw [hconstant]; decide), List.filter_cons_of_pos hconstant,
        List.length_cons]
      omega
    · rw [Bool.not_eq_true] at hconstant
      have hle := hother hconstant
      rw [List.filter_cons_of_pos (by rw [hconstant]; rfl),
        List.filter_cons_of_neg (by rw [hconstant]; decide), List.map_cons, List.sum_cons]
      omega

/-- The load of terms is what those count for that are no integers, and three for the others if
there are any. -/
lemma load_le (terms : List Expr) :
    load terms ≤ ((terms.filter fun e => !e.isConstant).map (weight .sum)).sum +
      3 * min 1 (terms.filter isConstant).length := by
  refine Nat.add_le_add_left ?_ _
  cases hconstants : terms.filter isConstant with
  | nil =>
    have hints : terms.filterMap integer? = [] := by
      rw [List.filterMap_eq_nil_iff]
      intro t ht
      have hconstant := List.filter_eq_nil_iff.1 hconstants t ht
      cases t <;> first | rfl | exact absurd rfl hconstant
    rw [hints, List.sum_nil, if_pos rfl]
    exact Nat.zero_le _
  | cons t others =>
    rw [List.length_cons, min_eq_left (Nat.le_add_left 1 _)]
    split_ifs
    · exact Nat.zero_le _
    · exact le_rfl

/-- A product with one factor more is folded to something that counts for no more than both. -/
lemma weight_foldedForm_join_le {a b : Expr} (ha : a.isExact = true) (hb : b.isExact = true) :
    (join .product a b).foldedForm.weight .product ≤
      a.foldedForm.weight .product + b.foldedForm.weight .product := by
  have hboth : ∀ e ∈ [a, b], e.isExact = true :=
    List.forall_mem_cons.2 ⟨ha, List.forall_mem_singleton.2 hb⟩
  have hle := weight_foldedForm_ofTerms_le .product (List.cons_ne_nil _ _) hboth
  rw [foldedForm_join .product ha hb]
  exact hle

/-- A sum of two trees is folded to something that counts for no more than one of them and the load
of the other one, or is an integer. -/
lemma weight_foldedForm_sum_le {a b : Expr} (ha : a.isExact = true) (hb : b.isExact = true) :
    (sum a b []).foldedForm.weight .sum ≤
      max 3 (a.foldedForm.weight .sum + load (b.foldedForm.terms .sum)) := by
  have hboth : ∀ e ∈ [a, b], e.isExact = true :=
    List.forall_mem_cons.2 ⟨ha, List.forall_mem_singleton.2 hb⟩
  have hform := foldedForm_ofTerms .sum (List.cons_ne_nil _ _) hboth
  have hfolded : ∀ t ∈ merged .sum ([a, b].map foldedForm), Folded t :=
    fun t ht => (folded_merged (folded_map_foldedForm hboth) t ht).1
  have hne : merged .sum ([a, b].map foldedForm) ≠ [] := merged_ne_nil .sum (by simp)
  have hload : load (merged .sum ([a, b].map foldedForm)) ≤
      a.foldedForm.weight .sum + load (b.foldedForm.terms .sum) := by
    rw [List.map_cons, List.map_singleton, merged_cons, merged, List.flatMap_singleton]
    exact (load_append_le _ _).trans
      (Nat.add_le_add_right (folded_foldedForm ha).load_terms_le _)
  have hweight := weight_folded_sum hne hfolded
  rw [← hform] at hweight
  exact hweight.trans_le (max_le_max le_rfl hload)

/-- Terms that are folded to zero do not add to a load. -/
lemma load_map_filter {es : List Expr} {live : Expr → Bool}
    (h : ∀ e ∈ es, live e = false → e.foldedForm = integer 0) (others : List Expr) :
    load ((es.filter live).map foldedForm ++ others) = load (es.map foldedForm ++ others) := by
  refine load_congr (condensed_append_congr ?_ rfl)
  induction es with
  | nil => rfl
  | cons e es ih =>
    obtain ⟨he, hes⟩ := List.forall_mem_cons.1 h
    by_cases hlive : live e = true
    · rw [List.filter_cons_of_pos hlive, List.map_cons, List.map_cons, ← List.singleton_append]
      exact condensed_append_congr rfl (ih hes)
    · have hunit : condensed .sum (es.map foldedForm) =
          condensed .sum (integer 0 :: es.map foldedForm) := (condensed_unit _).symm
      rw [List.filter_cons_of_neg hlive, ih hes, List.map_cons, he (Bool.not_eq_true _ ▸ hlive),
        hunit]

section Candidates

variable {ts : List Expr} (hts : ∀ t ∈ ts, Addend t) {f : Expr} (hf : f ∈ factorsAll ts)
  {size : ℕ}

include hts

/-- The collected terms that do not have a factor do not add to the load of these terms. -/
lemma load_remainder_le (hne : others f ts ≠ []) {remainder : Expr}
    (h : collectUpTo size (ofTerms .sum (others f ts)) = .ok remainder) :
    load (remainder.foldedForm.terms .sum) ≤ load ((others f ts).map foldedForm) := by
  have hothers : ∀ t ∈ others f ts, Addend t := fun t ht => hts t (List.mem_filter.1 ht).1
  have hterms : ∀ t ∈ others f ts, IsTerm t := fun t ht => (hothers t ht).isTerm
  have hsum := (hereditary_isExact.ofTerms .sum hne).2 (isExact_of_isTerm hterms)
  have hexact := (rewrites_of_collectUpTo h).isExact hsum
  refine ((lightens_of_addends hne hothers h).load_le hsum hexact).trans (le_of_eq (load_congr ?_))
  rw [foldedForm_sum_of_isTerm hne hterms]
  refine condensed_terms_folded (by simpa using hne) fun t' ht' => ?_
  obtain ⟨t, ht, rfl⟩ := List.mem_map.1 ht'
  exact ⟨(folded_foldedForm (hterms t ht).isExact).isExact, (hterms t ht).not_sum_foldedForm⟩

/-- The cofactor of a factorization is the sum of the quotients. -/
lemma cofactor_eq_ofTerms (f : Expr) : (factorizationBy f ts).cofactor =
    ofTerms .sum ((holders f ts).map fun t => t.divideOut (companionPowers f ts)) :=
  gather_of_isExact .sum
    (isExact_of_isTerm (isTerm_quotients (fun t ht => (hts t ht).isTerm) f))

include hf

/-- Collecting the cofactor of a factorization does not burden it. -/
lemma lightens_cofactor {cofactor : Expr}
    (h : collectUpTo size (factorizationBy f ts).cofactor = .ok cofactor) :
    Lightens (factorizationBy f ts).cofactor cofactor := by
  have hquotients : ∀ u ∈ (holders f ts).map fun t => t.divideOut (companionPowers f ts),
      Addend u :=
    List.forall_mem_map.2 fun t ht => (hts t (List.mem_filter.1 ht).1).divideOut _
  have hne : (holders f ts).map (fun t => t.divideOut (companionPowers f ts)) ≠ [] := by
    simpa using holders_ne_nil hf
  rw [cofactor_eq_ofTerms hts f] at h ⊢
  exact lightens_of_addends hne hquotients h

/-- What is taken out is folded to something that counts for no more than its factors. -/
lemma weight_factor_le :
    (factorizationBy f ts).factor.isExact = true ∧
      (factorizationBy f ts).factor.foldedForm.weight .product ≤ factorWeight f ts := by
  have hterms : ∀ t ∈ ts, IsTerm t := fun t ht => (hts t ht).isTerm
  have hmem := mem_eraseDups_factorsAll (isDecimalFree_of_isTerm hterms) hf
  have hexact := hereditary_isExact.companionPowers (isExact_of_isTerm hterms) f
  have hne := elements_companionPowers_ne_nil hmem
  refine ⟨hereditary_isExact.factor (isExact_of_isTerm hterms) hmem, ?_⟩
  have hle := weight_foldedForm_ofTerms_le .product hne hexact
  rw [List.map_map] at hle
  rw [factorizationBy, gather_of_isExact .product hexact]
  exact hle

/-- A recollected factorization counts for what is taken out, the collected quotients and the terms
that do not have the factor. -/
lemma weight_recollect_le {r : Expr}
    (h : recollect (collectUpTo size) (factorizationBy f ts) = .ok r) :
    r.weight .sum ≤ max 3 (factorWeight f ts +
      (factorizationBy f ts).cofactor.foldedForm.weight .sum +
        load ((others f ts).map foldedForm)) := by
  obtain ⟨cofactor, hcofactor, hcexact, hcases⟩ :=
    exists_parts_of_recollect (fun t ht => (hts t ht).isTerm.isExact) hf h
  have hlightens := lightens_cofactor hts hf hcofactor
  obtain ⟨hfexact, hfactor⟩ := weight_factor_le hts hf
  have hjoin := weight_foldedForm_join_le hfexact hcexact
  have hproduct : (join .product (factorizationBy f ts).factor cofactor).foldedForm.weight .sum ≤
      factorWeight f ts + (factorizationBy f ts).cofactor.foldedForm.weight .sum := by
    rw [weight_sum, weight_sum]
    have hle : cofactor.foldedForm.weight .product ≤
        (factorizationBy f ts).cofactor.foldedForm.weight .product :=
      Nat.add_le_add_right hlightens.complexity_le 1
    omega
  rcases hcases with ⟨-, rfl⟩ | ⟨hothers, remainder, hremainder, hrexact, rfl⟩
  · exact (hproduct.trans (Nat.le_add_right _ _)).trans (le_max_right _ _)
  · have hload := load_remainder_le hts hothers hremainder
    have hexact := (hereditary_isExact.join .product _ _).2 ⟨hfexact, hcexact⟩
    have hsum := weight_foldedForm_sum_le hexact hrexact
    exact hsum.trans (max_le_max le_rfl (Nat.add_le_add hproduct hload))

end Candidates

/-! ### Like terms -/

/-- The quotients of like terms are integers at the same time, as the same factors are taken out of
both. -/
lemma isConstant_quotient_of_like {ts : List Expr} (hts : ∀ t ∈ ts, IsTerm t) (f : Expr)
    {t u : Expr} (hlike : t.factors.Perm u.factors) (ht : t ∈ liveHolders f ts)
    (hu : u ∈ liveHolders f ts) :
    (u.divideOut (companionPowers f ts)).foldedForm.isConstant =
      (t.divideOut (companionPowers f ts)).foldedForm.isConstant := by
  have hfree := isDecimalFree_of_isTerm hts
  have hconstant : ∀ v ∈ liveHolders f ts,
      (v.divideOut (companionPowers f ts)).foldedForm.isConstant =
        (v.divideOut (companionPowers f ts)).factors.isEmpty := by
    intro v hv
    obtain ⟨hv, hlive⟩ := mem_liveHolders.1 hv
    have hmem := (List.mem_filter.1 hv).1
    refine ((hts v hmem).divideOut _).isConstant_foldedForm ?_
    rwa [signature_quotient hts f hmem]
  have hperm := (List.perm_append_left_iff _).1
    ((factors_perm_of_mem_holders hfree f (mem_liveHolders.1 ht).1).symm.trans
      (hlike.trans (factors_perm_of_mem_holders hfree f (mem_liveHolders.1 hu).1)))
  rw [hconstant u hu, hconstant t ht, Bool.eq_iff_iff, List.isEmpty_iff, List.isEmpty_iff]
  constructor
  · intro hnil
    rw [hnil] at hperm
    exact hperm.eq_nil
  · intro hnil
    rw [hnil] at hperm
    exact hperm.nil_eq.symm

/-- Whether two terms of a list without a zero have the same factors, and have any. -/
def HasLiveLike (ts : List Expr) : Prop :=
  HasLike (ts.filter fun t => t.signature.1 ≠ 0)

/-- Terms of an expanded tree have no zeros. -/
lemma HasLike.hasLiveLike {ts : List Expr} (h : HasLike ts) (hts : ∀ t ∈ ts, PartOf .sum t) :
    HasLiveLike ts := by
  rw [HasLiveLike, List.filter_eq_self.2]
  · exact h
  · exact fun t ht => decide_eq_true (hts t ht).signature_ne_zero

/-- Among the quotients of terms with a factor of like terms there are two that are integers, or two
that are none. -/
lemma exists_two_le_of_like {ts : List Expr} (hts : ∀ t ∈ ts, IsTerm t) (h : HasLiveLike ts) :
    ∃ f ∈ factorsAll ts, 2 ≤ ((quotientForms f ts).filter isConstant).length ∨
      2 ≤ ((quotientForms f ts).filter fun e => !e.isConstant).length := by
  obtain ⟨t, u, hsub, hlike, hne⟩ := h
  obtain ⟨f, hf⟩ := List.exists_mem_of_ne_nil _ hne
  have ht := (List.mem_filter.1 (hsub.subset List.mem_cons_self)).1
  have hfree := isDecimalFree_of_isTerm hts
  have hfree' := hereditary_isDecimalFree.factors (hfree t ht) f hf
  have htf : t.factors.contains f = true := (contains_iff_mem hfree').2 hf
  have huf : u.factors.contains f = true := (contains_iff_mem hfree').2 (hlike.subset hf)
  have hpair : [t, u].Sublist (liveHolders f ts) := by
    have hboth : ([t, u].filter fun t => t.factors.contains f) = [t, u] :=
      List.filter_eq_self.2 (List.forall_mem_cons.2 ⟨htf, List.forall_mem_singleton.2 huf⟩)
    have hsub' := hsub.filter fun t => t.factors.contains f
    rw [hboth, List.filter_filter] at hsub'
    rw [liveHolders, holders, List.filter_filter]
    simpa only [Bool.and_comm] using hsub'
  have hsame := isConstant_quotient_of_like hts f hlike (hpair.subset List.mem_cons_self)
    (hpair.subset (List.mem_cons_of_mem t List.mem_cons_self))
  have hforms := hpair.map fun t => (t.divideOut (companionPowers f ts)).foldedForm
  refine ⟨f, mem_factorsAll.2 ⟨t, ht, hf⟩, ?_⟩
  by_cases hconstant : (t.divideOut (companionPowers f ts)).foldedForm.isConstant = true
  · left
    have hle := (hforms.filter isConstant).length_le
    rwa [List.map_cons, List.map_singleton, List.filter_cons_of_pos hconstant,
      List.filter_cons_of_pos (hsame.trans hconstant)] at hle
  · right
    rw [Bool.not_eq_true] at hconstant
    have hle := (hforms.filter fun e => !e.isConstant).length_le
    rwa [List.map_cons, List.map_singleton, List.filter_cons_of_pos (by rw [hconstant]; rfl),
      List.filter_cons_of_pos (by rw [hsame, hconstant]; rfl)] at hle

/-- Terms that are no integers count for three each at least. -/
lemma three_mul_length_le {es : List Expr} (h : ∀ e ∈ es, 1 ≤ e.complexity) :
    3 * es.length ≤ (es.map (weight .sum)).sum := by
  induction es with
  | nil => exact le_rfl
  | cons e es ih =>
    obtain ⟨he, hes⟩ := List.forall_mem_cons.1 h
    have hrest := ih hes
    have hweight : e.weight .sum = e.complexity + 2 := rfl
    rw [List.length_cons, List.map_cons, List.sum_cons]
    omega

section Balance

variable {ts : List Expr} (hts : ∀ t ∈ ts, Addend t) {f : Expr} (hf : f ∈ factorsAll ts)

include hts hf

/-- The collected cofactor of a factorization counts for the load of the quotients. -/
lemma weight_cofactor_eq : (factorizationBy f ts).cofactor.foldedForm.weight .sum =
    max 3 (load (quotientForms f ts)) := by
  have hterms : ∀ t ∈ ts, IsTerm t := fun t ht => (hts t ht).isTerm
  have hquotients := isTerm_quotients hterms f
  have hne : (holders f ts).map (fun t => t.divideOut (companionPowers f ts)) ≠ [] := by
    simpa using holders_ne_nil hf
  have hzero : ∀ u ∈ (holders f ts).map fun t => t.divideOut (companionPowers f ts),
      decide (u.signature.1 ≠ 0) = false → u.foldedForm = integer 0 := by
    intro u hu hdead
    exact (hquotients u hu).foldedForm_eq_zero (by simpa using hdead)
  have hlive : ((holders f ts).map fun t => t.divideOut (companionPowers f ts)).filter
      (fun u => u.signature.1 ≠ 0) =
        (liveHolders f ts).map fun t => t.divideOut (companionPowers f ts) := by
    rw [List.filter_map, liveHolders]
    refine congrArg _ (List.filter_congr fun t ht => ?_)
    rw [Function.comp_apply, signature_quotient hterms f (List.mem_filter.1 ht).1]
  have hload := load_map_filter hzero []
  rw [hlive, List.append_nil, List.append_nil, List.map_map] at hload
  rw [cofactor_eq_ofTerms hts f, foldedForm_sum_of_isTerm hne hquotients,
    weight_folded_sum (by simpa using hne) (folded_map_foldedForm (isExact_of_isTerm hquotients)),
    ← hload]
  rfl

/-- A sum counts for its terms that have a factor and no zero and for the load of those that do not
have the factor. -/
lemma weight_sum_eq : (ofTerms .sum ts).foldedForm.weight .sum =
    max 3 ((((liveHolders f ts).map foldedForm).map (weight .sum)).sum +
      load ((others f ts).map foldedForm)) := by
  have hterms : ∀ t ∈ ts, IsTerm t := fun t ht => (hts t ht).isTerm
  have hne : ts ≠ [] := by
    rintro rfl
    exact List.not_mem_nil hf
  have hzero : ∀ t ∈ holders f ts, decide (t.signature.1 ≠ 0) = false →
      t.foldedForm = integer 0 := by
    intro t ht hdead
    exact (hterms t (List.mem_filter.1 ht).1).foldedForm_eq_zero (by simpa using hdead)
  have hconstants : ∀ t ∈ (liveHolders f ts).map foldedForm, t.isConstant = false := by
    refine List.forall_mem_map.2 fun t ht => ?_
    obtain ⟨ht, hlive⟩ := mem_liveHolders.1 ht
    obtain ⟨ht, hft⟩ := (mem_holders (isDecimalFree_of_isTerm hterms) hf).1 ht
    rw [(hterms t ht).isConstant_foldedForm hlive, List.isEmpty_eq_false_iff]
    exact List.ne_nil_of_mem hft
  rw [foldedForm_sum_of_isTerm hne hterms,
    weight_folded_sum (by simpa using hne) (folded_map_foldedForm (isExact_of_isTerm hterms)),
    ← load_append_of_not_isConstant hconstants, liveHolders, load_map_filter hzero,
    ← List.map_append, load_perm ((holders_append_others_perm f ts).map foldedForm)]

/-- A factorization with two quotients that are integers, or two that are none, counts for at least
two less than the terms when it is recollected. -/
lemma balance_of_two_le (htwo : 2 ≤ ((quotientForms f ts).filter isConstant).length ∨
      2 ≤ ((quotientForms f ts).filter fun e => !e.isConstant).length)
    {size : ℕ} {r : Expr} (h : recollect (collectUpTo size) (factorizationBy f ts) = .ok r) :
    r.weight .sum + 2 ≤ (ofTerms .sum ts).foldedForm.weight .sum := by
  have hterms : ∀ t ∈ ts, IsTerm t := fun t ht => (hts t ht).isTerm
  have hbound := weight_recollect_le hts hf h
  rw [weight_cofactor_eq hts hf] at hbound
  have hload := load_le (quotientForms f ts)
  have hweights := sum_weight_quotients_le fun t => weight_of_mem_liveHolders hterms f (t := t)
  rw [← quotientForms] at hweights
  have hlength := length_liveHolders f ts
  have hothers : 3 * ((quotientForms f ts).filter fun e => !e.isConstant).length ≤
      (((quotientForms f ts).filter fun e => !e.isConstant).map (weight .sum)).sum := by
    refine three_mul_length_le fun e he => ?_
    obtain ⟨t, ht, rfl⟩ := List.mem_map.1 (List.mem_filter.1 he).1
    have hmem := (List.mem_filter.1 (mem_liveHolders.1 ht).1).1
    exact (folded_foldedForm ((hterms t hmem).divideOut _).isExact).one_le_complexity
  have hthree := three_le_factorWeight hterms f hf
  -- All but one of the terms with the factor save what is taken out of them.
  have hsaved : factorWeight f ts + 3 * ((liveHolders f ts).length - 1) ≤
      factorWeight f ts * (liveHolders f ts).length := by
    obtain ⟨n, hn⟩ := Nat.exists_eq_succ_of_ne_zero (n := (liveHolders f ts).length) (by omega)
    rw [hn, Nat.succ_sub_one, Nat.mul_succ, Nat.add_comm]
    exact Nat.add_le_add_right (Nat.mul_le_mul_right n hthree) _
  rw [weight_sum_eq hts hf]
  omega

end Balance

/-- A factorization of several terms is tried. -/
lemma factorizationBy_mem_useful {ts : List Expr} (hts : ∀ t ∈ ts, Addend t) {f : Expr}
    (hf : f ∈ factorsAll ts) (htwo : 2 ≤ (holders f ts).length) :
    factorizationBy f ts ∈ usefulFactorizations ts := by
  have hterms : ∀ t ∈ ts, IsTerm t := fun t ht => (hts t ht).isTerm
  have hmem := mem_eraseDups_factorsAll (isDecimalFree_of_isTerm hterms) hf
  refine List.mem_filter.2 ⟨mem_factorizationsOf.2 ⟨f, hmem, rfl⟩, ?_⟩
  rw [cofactor_eq_ofTerms hts f]
  match holders f ts, htwo with
  | t :: u :: rest, _ => rfl

/-- A collected sum is no more complicated than any of its recollected factorizations. -/
lemma exists_recollect_of_collectUpTo {a b r : Expr} {rest : List Expr} {size : ℕ}
    (h : collectUpTo (size + 1) (sum a b rest) = .ok r) {F : Factorization}
    (hF : F ∈ usefulFactorizations (a :: b :: rest)) :
    ∃ c, recollect (collectUpTo size) F = .ok c ∧ r.complexity ≤ c.complexity := by
  obtain ⟨es, -, hr⟩ := collectWith_sum_eq_ok_iff.1 h
  obtain ⟨plain, candidates, -, hcandidates, rfl⟩ := collectSum_eq_ok_iff.1 hr
  obtain ⟨c, hc, hrecollect⟩ := exists_mem_of_forall₂ hcandidates hF
  exact ⟨c, hrecollect, complexity_simplestOf_le _ _ c (List.mem_cons_of_mem _ hc)⟩

/-- A collected sum is folded. -/
lemma folded_of_collectUpTo {a b r : Expr} {rest : List Expr} {size : ℕ}
    (he : (sum a b rest).isExact = true) (h : collectUpTo (size + 1) (sum a b rest) = .ok r) :
    Folded r := by
  obtain ⟨es, hes, hr⟩ := collectWith_sum_eq_ok_iff.1 h
  have hterms : ∀ t ∈ a :: b :: rest, ∀ t', collectWith (collectUpTo size) t = .ok t' →
      Rewrites t t' := fun t _ t' =>
    rewrites_of_collectWith (fun _ _ => rewrites_of_collectUpTo) (collectUpTo_empty size)
  obtain ⟨e', hrewrites, hfold⟩ := exists_rewrites_of_collectSum
    (fun _ _ => rewrites_of_collectUpTo) (collectUpTo_empty size) (List.cons_ne_nil _ _)
    (forall₂_of_forall hterms hes) hr
  exact folded_of_foldConstants (hrewrites.isExact he) hfold

/-- A sum of addends with like ones becomes simpler by at least two when it is collected. -/
theorem complexity_collectUpTo_of_like {a b r : Expr} {rest : List Expr} {size : ℕ}
    (hts : ∀ t ∈ a :: b :: rest, Addend t) (hlike : HasLiveLike (a :: b :: rest))
    (hr : collectUpTo (size + 1) (sum a b rest) = .ok r) :
    r.complexity + 2 ≤ (sum a b rest).foldedForm.complexity := by
  obtain ⟨f, hf, htwo⟩ := exists_two_le_of_like (fun t ht => (hts t ht).isTerm) hlike
  have hlength := length_liveHolders f (a :: b :: rest)
  have hle : (liveHolders f (a :: b :: rest)).length ≤ (holders f (a :: b :: rest)).length :=
    List.length_filter_le _ _
  obtain ⟨c, hc, hle⟩ :=
    exists_recollect_of_collectUpTo hr (factorizationBy_mem_useful hts hf (by omega))
  have hbalance := balance_of_two_le hts hf htwo hc
  calc r.complexity + 2 ≤ c.complexity + 2 := Nat.add_le_add_right hle 2
    _ ≤ (sum a b rest).foldedForm.complexity := Nat.add_le_add_iff_right.1 hbalance

/-- An expanded tree with like terms becomes simpler by at least two when it is collected. -/
theorem Expanded.complexity_collect_of_like {e r : Expr} (h : Expanded e)
    (hlike : HasLike (e.terms .sum)) (hr : collect e = .ok r) :
    r.foldedForm.complexity + 2 ≤ e.foldedForm.complexity := by
  rcases eq_nary_or_not_isNary .sum e with ⟨a, b, rest, rfl⟩ | hnot
  · have hts := h.terms (by simp) (Or.inl rfl)
    rw [terms_nary] at hlike hts
    rw [(folded_of_collectUpTo h.isExact hr).foldedForm_eq]
    exact complexity_collectUpTo_of_like (fun t ht => .part (hts t ht)) (hlike.hasLiveLike hts) hr
  · -- A tree that is no sum has a single term.
    obtain ⟨t, u, hsub, -, -⟩ := hlike
    rw [terms_of_not_isNary hnot] at hsub
    exact absurd hsub.length_le (Nat.not_succ_le_self 1)

end TermAlgebra.Expr
