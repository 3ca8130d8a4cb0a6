import Mathlib.Tactic
import TermAlgebra.Proofs.Constancy
import TermAlgebra.Proofs.Interchange

/-!
# Alike monomials

Collecting does not tell sums of alike monomials apart.

Monomials are alike if their constants come to the same integer and their variables are the same
(`Alike`).  They have the same folded form (`Alike.foldedForm`), they remain alike when powers are
taken out of them (`Alike.divideOut`), and which factors the terms of a sum share does not depend on
more than this, so that sums of alike monomials have corresponding factorizations
(`forall₂_factorizationsOf`).  By induction on the number of factors the candidates for both sums
are the same, and so are the results (`collectsAlike_sum`, `collect_of_alike`).  The monomials of
expanded interchangeable polynomials are alike (`Interchangeable.collectsAlike`).
-/

namespace TermAlgebra.Expr

/-! ### Striking powers out of atoms -/

/-- No integer is taken from well-formed powers. -/
lemma take?_integer {powers : Powers} (hw : powers.WellFormed) (n : ℤ) :
    powers.take? (integer n) = none := by
  cases htake : powers.take? (integer n) with
  | none => rfl
  | some fewer =>
    have hmem : integer n ∈ powers.elements :=
      (Powers.take?_eq_some hw htake).2.mem_iff.2 List.mem_cons_self
    exact nomatch hw.factors _ (Powers.mem_bases_of_mem_elements hmem)

/-- What is left of integers and factors are all the integers and what is left of the factors. -/
lemma contents_strikeAll {es : List Expr}
    (h : ∀ e ∈ es, (∃ n, e = integer n) ∨ e.isWhole = true ∧ e.factors = [e]) {powers : Powers}
    (hw : powers.WellFormed) :
    contents (strikeAll es powers).left = ((es.filterMap integer?).prod,
      FreeMonoid.ofList (strikeAll (factorsAll es) powers).left) := by
  induction es generalizing powers with
  | nil => rfl
  | cons e es ih =>
    obtain ⟨he, hes⟩ := List.forall_mem_cons.1 h
    rcases he with ⟨n, rfl⟩ | ⟨hwhole, hself⟩
    · have hstrike : (integer n).strike powers = ⟨[integer n], powers, false⟩ := by
        rw [strike_of_isWhole rfl, take?_integer hw]
      have hinteger : contents [integer n] = (n, 1) := by simp [contents, integer?, factors]
      rw [strikeAll, hstrike, Remains.append, contents_append, ih hes hw, hinteger,
        List.filterMap_cons_some (f := integer?) (b := n) rfl, List.prod_cons, Prod.mk_mul_mk,
        one_mul]
      rfl
    · have hnone : e.integer? = none := by
        cases e with
        | integer n => exact absurd (congrArg List.length hself) Nat.zero_ne_one
        | _ => rfl
      have hfactors : factorsAll (e :: es) = e :: factorsAll es := by
        rw [factorsAll, hself, List.singleton_append]
      have hsingle : contents [e] = (1, FreeMonoid.ofList [e]) := by
        rw [contents, List.filterMap_cons_none hnone, factorsAll_singleton, hself]
        rfl
      rw [hfactors, List.filterMap_cons_none hnone, strikeAll, strikeAll, strike_of_isWhole hwhole]
      cases htake : powers.take? e with
      | none =>
        simp only [Remains.append]
        rw [contents_append, ih hes hw, hsingle, Prod.mk_mul_mk, one_mul, FreeMonoid.ofList_append]
      | some fewer =>
        have hfewer : fewer.WellFormed := hw.congr (Powers.take?_eq_some hw htake).1
        exact ih hes hfewer

/-- A quotient has the integers of the term and what is left of its factors. -/
lemma signature_divideOut {t : Expr} (ht : t.isExact = true)
    (h : ∀ a ∈ t.terms .product, (∃ n, a = integer n) ∨ a.isWhole = true ∧ a.factors = [a])
    {powers : Powers} (hw : powers.WellFormed) :
    (t.divideOut powers).signature =
      (t.signature.1, FreeMonoid.ofList (strikeAll t.factors powers).left) := by
  have hwhole : ∀ a ∈ t.terms .product, a.isWhole = true := by
    intro a ha
    rcases h a ha with ⟨n, rfl⟩ | ⟨hwhole, -⟩
    · rfl
    · exact hwhole
  obtain ⟨hleft, hcases⟩ := divideOut_of_isWhole ht hwhole powers
  have hsignature : (t.divideOut powers).signature = contents (t.strike powers).left := by
    rcases hcases with ⟨hnil, hone⟩ | ⟨hne, hproduct⟩
    · rw [hone, hnil]
      rfl
    · rw [hproduct, signature_ofTerms hne]
      exact fun a ha => isNary_of_isWhole (hwhole a (hleft a ha))
  rw [hsignature, ← strikeAll_terms, contents_strikeAll h hw, factorsAll_terms]
  rfl

/-- The factors of a monomial are integers and variables. -/
lemma integer_or_factor_of_isMonomial {t : Expr} (ht : t.isMonomial = true) :
    ∀ a ∈ t.terms .product, (∃ n, a = integer n) ∨ a.isWhole = true ∧ a.factors = [a] := by
  intro a ha
  rcases isAtom_iff.1 (isMonomial_iff.1 ht a ha) with ⟨n, rfl⟩ | ⟨s, rfl⟩
  · exact Or.inl ⟨n, rfl⟩
  · exact Or.inr ⟨rfl, rfl⟩

/-! ### Alike monomials -/

/-- Whether two monomials have the same signature. -/
structure Alike (t t' : Expr) : Prop where
  left : t.isMonomial = true
  right : t'.isMonomial = true
  signature : t.signature = t'.signature

/-- The variables among atoms are their factors. -/
lemma filter_of_isAtom {es : List Expr} (h : ∀ e ∈ es, e.isAtom = true) :
    es.filter (fun e => !e.isConstant) = factorsAll es := by
  induction es with
  | nil => rfl
  | cons e es ih =>
    obtain ⟨he, hes⟩ := List.forall_mem_cons.1 h
    rcases isAtom_iff.1 he with ⟨n, rfl⟩ | ⟨s, rfl⟩
    · exact ih hes
    · exact congrArg (var s :: ·) (ih hes)

/-- The folded form of a monomial depends on its integer and its variables. -/
lemma foldedForm_of_isMonomial {t : Expr} (ht : t.isMonomial = true) :
    t.foldedForm = ofCondensed .product (condensed .product (t.terms .product)) := by
  have hatoms := isMonomial_iff.1 ht
  have hexact : ∀ a ∈ t.terms .product, a.isExact = true :=
    fun a ha => (folded_of_isAtom (hatoms a ha)).isExact
  have hforms : (t.terms .product).map foldedForm = t.terms .product :=
    (List.map_congr_left fun a ha => (folded_of_isAtom (hatoms a ha)).foldedForm_eq).trans
      (List.map_id _)
  have hform := foldedForm_ofTerms .product (terms_ne_nil .product t) hexact
  rw [ofTerms_terms, hforms, merged_eq_self fun a ha => isNary_of_isAtom (hatoms a ha)] at hform
  rw [hform, folded_eq_ofCondensed (terms_ne_nil .product t) hexact]

namespace Alike

variable {t t' : Expr}

/-- Alike monomials have the same variables. -/
lemma factors (h : Alike t t') : t.factors = t'.factors := by
  have hvariables := congrArg Prod.snd h.signature
  rw [signature_snd, signature_snd] at hvariables
  exact FreeMonoid.ofList.injective hvariables

/-- Alike monomials have the same folded form. -/
lemma foldedForm (h : Alike t t') : t.foldedForm = t'.foldedForm := by
  have hintegers := congrArg Prod.fst h.signature
  rw [foldedForm_of_isMonomial h.left, foldedForm_of_isMonomial h.right]
  refine congrArg _ (condensed_eq_iff.2 ⟨?_, Or.inl ?_⟩)
  · rw [AssocOp.total_product, AssocOp.total_product]
    exact hintegers
  · rw [filter_of_isAtom (isMonomial_iff.1 h.left), filter_of_isAtom (isMonomial_iff.1 h.right),
      factorsAll_terms, factorsAll_terms, h.factors]

/-- Quotients of alike monomials are alike. -/
lemma divideOut (h : Alike t t') {powers : Powers} (hw : powers.WellFormed) :
    Alike (t.divideOut powers) (t'.divideOut powers) := by
  have hquotient : ∀ {u : Expr}, u.isMonomial = true → (u.divideOut powers).signature =
      (u.signature.1, FreeMonoid.ofList (strikeAll u.factors powers).left) := fun hu =>
    signature_divideOut (isExact_of_isMonomial hu) (integer_or_factor_of_isMonomial hu) hw
  refine ⟨isMonomial_divideOut h.left powers, isMonomial_divideOut h.right powers, ?_⟩
  rw [hquotient h.left, hquotient h.right, h.signature, h.factors]

end Alike

/-! ### Sums of alike monomials -/

section Sums

variable {ts ts' : List Expr} (h : List.Forall₂ Alike ts ts')

include h

/-- Terms that are alike are monomials. -/
lemma isMonomial_of_forall₂ : ∀ t ∈ ts, t.isMonomial = true :=
  forall_mem_left_of_forall₂ h fun _ _ htt' => htt'.left

/-- The terms on the other side are monomials as well. -/
lemma isMonomial_of_forall₂_right : ∀ t' ∈ ts', t'.isMonomial = true :=
  forall_mem_right_of_forall₂ h fun _ _ htt' => htt'.right

/-- Terms that are alike have the same factors. -/
lemma factorsAll_of_forall₂ : factorsAll ts = factorsAll ts' := by
  rw [factorsAll_eq_flatMap, factorsAll_eq_flatMap, List.flatMap_def, List.flatMap_def,
    map_eq_of_forall₂ (f := factors) Alike.factors h]

/-- They share a factor in the same places. -/
lemma sharing_of_forall₂ (f : Expr) : sharing f ts = sharing f ts' :=
  map_eq_of_forall₂ (fun htt' => by rw [htt'.factors]) h

/-- The terms that have a factor are alike. -/
lemma forall₂_holders (f : Expr) : List.Forall₂ Alike (holders f ts) (holders f ts') :=
  List.rel_filter (fun _ _ htt' => by simp only [htt'.factors]) h

/-- The terms that do not have a factor are alike. -/
lemma forall₂_others (f : Expr) : List.Forall₂ Alike (others f ts) (others f ts') :=
  List.rel_filter (fun _ _ htt' => by simp only [htt'.factors]) h

/-- Factors occur together in the same powers. -/
lemma companionPowers_of_forall₂ (f : Expr) : companionPowers f ts = companionPowers f ts' := by
  have hcompanions : companions f ts = companions f ts' := by
    simp only [companions, factorsAll_of_forall₂ h, sharing_of_forall₂ h]
  have hexponent : ∀ g, commonExponent (holders f ts) g = commonExponent (holders f ts') g := by
    intro g
    unfold commonExponent
    rw [map_eq_of_forall₂ (fun htt' => by rw [htt'.factors]) (forall₂_holders h f)]
  simp only [companionPowers, hcompanions, hexponent]

/-- The quotients by a factor and its companions are alike. -/
lemma forall₂_quotients (f : Expr) :
    List.Forall₂ Alike ((holders f ts).map fun t => t.divideOut (companionPowers f ts))
      ((holders f ts').map fun t => t.divideOut (companionPowers f ts')) := by
  have hw := wellFormed_companionPowers (isDecimalFree_of_isMonomial (isMonomial_of_forall₂ h)) f
  rw [← companionPowers_of_forall₂ h, List.forall₂_map_left_iff, List.forall₂_map_right_iff]
  exact (forall₂_holders h f).imp fun _ _ htt' => htt'.divideOut hw

/-- The factorizations of both sums are those by the same factors. -/
lemma forall₂_factorizationsOf :
    List.Forall₂ (fun F F' => ∃ f ∈ (factorsAll ts).eraseDups, F = factorizationBy f ts ∧
      F' = factorizationBy f ts') (factorizationsOf ts) (factorizationsOf ts') := by
  unfold factorizationsOf
  rw [← factorsAll_of_forall₂ h]
  simp only [List.map_map, ← sharing_of_forall₂ h, List.forall₂_map_left_iff,
    List.forall₂_map_right_iff, List.forall₂_same, List.mem_eraseDups, List.mem_map]
  rintro _ ⟨f, hf, rfl⟩
  refine ⟨f, hf, factorOut_sharing f ts, ?_⟩
  have hright := factorOut_sharing f ts'
  rw [← factorsAll_of_forall₂ h] at hright
  simp only [← sharing_of_forall₂ h] at hright
  exact hright

end Sums

/-! ### Recollecting -/

/-- Alike monomials have the same folded form. -/
lemma Alike.sameForm {t t' : Expr} (h : Alike t t') : SameForm t t' :=
  ⟨isExact_of_isMonomial h.left, isExact_of_isMonomial h.right, h.foldedForm⟩

section Recollecting

variable {again again' : Expr → Except Fault Expr}

/-- Whether two expressions are both collected, to expressions with the same folded form. -/
def CollectsAlike (again again' : Expr → Except Fault Expr) (e e' : Expr) : Prop :=
  ∃ r r', again e = .ok r ∧ again' e' = .ok r' ∧ SameForm r r'

/-- Factorizations by the same factor are recollected to the same expression if their parts are
collected alike. -/
lemma exists_recollect_same {F F' : Factorization} (hfactor : F.factor = F'.factor)
    (hexact : F.factor.isExact = true)
    (hcofactor : CollectsAlike again again' F.cofactor F'.cofactor)
    (hremainder : again F.remainder = .ok empty ∧ again' F'.remainder = .ok empty ∨
      CollectsAlike again again' F.remainder F'.remainder) :
    ∃ e, recollect again F = .ok e ∧ recollect again' F' = .ok e := by
  obtain ⟨c, c', hc, hc', hcsame⟩ := hcofactor
  have hproduct := hcsame.join .product hexact
  -- Both stand for sums with the same folded form.
  obtain ⟨r, r', hr, hr', hsame⟩ : ∃ r r', again F.remainder = .ok r ∧
      again' F'.remainder = .ok r' ∧ SameForm (Factorization.expr ⟨F.factor, c, r⟩)
        (Factorization.expr ⟨F.factor, c', r'⟩) := by
    rcases hremainder with ⟨hr, hr'⟩ | ⟨r, r', hr, hr', hrsame⟩
    · refine ⟨empty, empty, hr, hr', ?_⟩
      rw [Factorization.expr, Factorization.expr, gather_join_empty, gather_join_empty]
      exact hproduct
    · refine ⟨r, r', hr, hr', ?_⟩
      have hpair : List.Forall₂ SameForm [join .product F.factor c, r]
          [join .product F.factor c', r'] := .cons hproduct (.cons hrsame .nil)
      rw [Factorization.expr, Factorization.expr,
        gather_eq_ofTerms .sum (by simp [isEmpty_join, isEmpty_of_isExact hrsame.left]),
        gather_eq_ofTerms .sum (by simp [isEmpty_join, isEmpty_of_isExact hrsame.right])]
      exact SameForm.ofTerms .sum (List.cons_ne_nil _ _) hpair
  refine ⟨_, recollect_eq_ok_iff.2 ⟨c, r, hc, hr, foldConstants_eq_foldedForm hsame.left⟩,
    recollect_eq_ok_iff.2 ⟨c', r', hc', hr', ?_⟩⟩
  rw [← hfactor, ← hsame.foldConstants_eq, foldConstants_eq_foldedForm hsame.left]

end Recollecting

/-! ### Collecting -/

section Collecting

variable {ts ts' : List Expr} (h : List.Forall₂ Alike ts ts')

include h

/-- Gathered monomials are collected alike if sums with no more factors are. -/
lemma collectsAlike_gather {size size' bound : ℕ} (hne : ts ≠ [])
    (hbound : (factorsAll ts).length < bound)
    (hsums : ∀ {a b a' b' : Expr} {rest rest' : List Expr},
      List.Forall₂ Alike (a :: b :: rest) (a' :: b' :: rest') →
        (factorsAll (a :: b :: rest)).length < bound →
          CollectsAlike (collectUpTo size) (collectUpTo size') (sum a b rest) (sum a' b' rest')) :
    CollectsAlike (collectUpTo size) (collectUpTo size') (gather .sum ts) (gather .sum ts') := by
  rw [gather_of_isMonomial (isMonomial_of_forall₂ h),
    gather_of_isMonomial (isMonomial_of_forall₂_right h)]
  obtain _ | ⟨hfirst, _ | ⟨hsecond, hothers⟩⟩ := h
  · exact absurd rfl hne
  · exact ⟨_, _, collectUpTo_of_isMonomial hfirst.left size,
      collectUpTo_of_isMonomial hfirst.right size', hfirst.sameForm⟩
  · exact hsums (.cons hfirst (.cons hsecond hothers)) hbound

/-- The useful factorizations of both sums are those by the same factors. -/
lemma forall₂_usefulFactorizations :
    List.Forall₂ (fun F F' => ∃ f ∈ (factorsAll ts).eraseDups, F = factorizationBy f ts ∧
      F' = factorizationBy f ts') (usefulFactorizations ts) (usefulFactorizations ts') := by
  refine List.rel_filter ?_ (forall₂_factorizationsOf h)
  rintro _ _ ⟨f, -, rfl, rfl⟩
  have hquotients := forall₂_quotients h f
  have hcofactor : ∀ {us : List Expr}, (∀ u ∈ us, u.isMonomial = true) →
      ((gather .sum us).isNary .sum = true ↔ 2 ≤ us.length) := by
    intro us hus
    rw [gather_of_isMonomial hus]
    match us with
    | [] => decide
    | [u] => simp [ofTerms, isNary_of_isMonomial (hus u List.mem_cons_self)]
    | a :: b :: rest => simp [ofTerms, isNary]
  have hleft := hcofactor (isMonomial_of_forall₂ hquotients)
  have hright := hcofactor (isMonomial_of_forall₂_right hquotients)
  rw [← hquotients.length_eq] at hright
  exact hleft.trans hright.symm

/-- The factorizations by a factor are recollected to the same expression, if sums with fewer
factors are collected alike. -/
lemma exists_recollect_factorizationBy {size size' : ℕ} {f : Expr}
    (hf : f ∈ (factorsAll ts).eraseDups)
    (hsums : ∀ {a b a' b' : Expr} {rest rest' : List Expr},
      List.Forall₂ Alike (a :: b :: rest) (a' :: b' :: rest') →
        (factorsAll (a :: b :: rest)).length < (factorsAll ts).length →
          CollectsAlike (collectUpTo size) (collectUpTo size') (sum a b rest) (sum a' b' rest')) :
    ∃ e, recollect (collectUpTo size) (factorizationBy f ts) = .ok e ∧
      recollect (collectUpTo size') (factorizationBy f ts') = .ok e := by
  have hmonomials := isMonomial_of_forall₂ h
  have hmem := mem_of_mem_eraseDups hf
  obtain ⟨v, rfl⟩ : ∃ v, f = var v := by
    obtain ⟨t, ht, hft⟩ := mem_factorsAll.1 hmem
    exact ((mem_factors_of_isMonomial (hmonomials t ht)).1 hft).2
  have hquotients := length_factorsAll_quotients_lt hmonomials hmem
  have hadd := length_factorsAll_holders_add (var v) ts
  have hfactor : (factorizationBy (var v) ts).factor = (factorizationBy (var v) ts').factor := by
    rw [factorizationBy, factorizationBy, companionPowers_of_forall₂ h]
  refine exists_recollect_same hfactor
    (hereditary_isExact.factor (fun t ht => isExact_of_isMonomial (hmonomials t ht)) hf) ?_ ?_
  · refine collectsAlike_gather (forall₂_quotients h (var v)) ?_ (by omega) hsums
    simpa using holders_ne_nil hmem
  · have hothers := forall₂_others h (var v)
    by_cases hne : others (var v) ts = []
    · left
      have hne' : others (var v) ts' = [] := by rwa [hne, List.forall₂_nil_left_iff] at hothers
      rw [factorizationBy, factorizationBy, hne, hne']
      exact ⟨collectUpTo_empty size, collectUpTo_empty size'⟩
    · exact Or.inr (collectsAlike_gather hothers hne (by omega) hsums)

end Collecting

/-- A sum of monomials is collected to the simplest candidate. -/
lemma collectUpTo_sum {size : ℕ} {a b plain : Expr} {rest candidates : List Expr}
    (h : ∀ t ∈ a :: b :: rest, t.isMonomial = true)
    (hplain : foldConstants (sum a b rest) = .ok plain)
    (hcandidates : List.Forall₂ (fun F c => recollect (collectUpTo size) F = .ok c)
      (usefulFactorizations (a :: b :: rest)) candidates) :
    collectUpTo (size + 1) (sum a b rest) = .ok (simplestOf plain candidates) := by
  refine collectWith_sum_eq_ok_iff.2 ⟨a :: b :: rest, ?_, ?_⟩
  · rw [List.forall₂_same]
    exact fun t ht => collectUpTo_of_isMonomial (h t ht) (size + 1)
  · refine collectSum_eq_ok_iff.2 ⟨plain, candidates, ?_, hcandidates, rfl⟩
    rw [gather_of_isMonomial h]
    exact hplain

/-- Items of related lists that have a common image each have a list of common images. -/
lemma exists_forall₂_common {α β γ : Type} {R : α → β → Prop} {P : α → γ → Prop}
    {Q : β → γ → Prop} (hR : ∀ {a : α} {b : β}, R a b → ∃ c, P a c ∧ Q b c) {as : List α}
    {bs : List β} (h : List.Forall₂ R as bs) :
    ∃ cs, List.Forall₂ P as cs ∧ List.Forall₂ Q bs cs := by
  induction h with
  | nil => exact ⟨[], .nil, .nil⟩
  | cons hab _ ih =>
    obtain ⟨c, hac, hbc⟩ := hR hab
    obtain ⟨cs, has, hbs⟩ := ih
    exact ⟨c :: cs, .cons hac has, .cons hbc hbs⟩

/-- Sums of alike monomials are collected alike, if as many levels are allowed as there are
factors. -/
theorem collectsAlike_sum {size size' : ℕ} {a b a' b' : Expr} {rest rest' : List Expr}
    (h : List.Forall₂ Alike (a :: b :: rest) (a' :: b' :: rest'))
    (hsize : (factorsAll (a :: b :: rest)).length < size)
    (hsize' : (factorsAll (a :: b :: rest)).length < size') :
    CollectsAlike (collectUpTo size) (collectUpTo size') (sum a b rest) (sum a' b' rest') := by
  induction size generalizing size' a b a' b' rest rest' with
  | zero => exact absurd hsize (Nat.not_lt_zero _)
  | succ size ih =>
    obtain ⟨size', rfl⟩ := Nat.exists_eq_add_one_of_ne_zero (Nat.ne_zero_of_lt hsize')
    have hplain : SameForm (sum a b rest) (sum a' b' rest') :=
      SameForm.ofTerms .sum (List.cons_ne_nil _ _) (h.imp fun _ _ htt' => htt'.sameForm)
    obtain ⟨candidates, hleft, hright⟩ : ∃ candidates,
        List.Forall₂ (fun F c => recollect (collectUpTo size) F = .ok c)
          (usefulFactorizations (a :: b :: rest)) candidates ∧
        List.Forall₂ (fun F c => recollect (collectUpTo size') F = .ok c)
          (usefulFactorizations (a' :: b' :: rest')) candidates := by
      refine exists_forall₂_common ?_ (forall₂_usefulFactorizations h)
      rintro _ _ ⟨f, hf, rfl, rfl⟩
      exact exists_recollect_factorizationBy h hf fun hsum hlt => ih hsum (by omega) (by omega)
    have hfold := foldConstants_eq_foldedForm hplain.left
    have hcollect := collectUpTo_sum (isMonomial_of_forall₂ h) hfold hleft
    have hexact := (rewrites_of_collectUpTo hcollect).isExact hplain.left
    refine ⟨_, _, hcollect, ?_, hexact, hexact, rfl⟩
    exact collectUpTo_sum (isMonomial_of_forall₂_right h) (hplain.foldConstants_eq ▸ hfold) hright

/-- Sums of alike monomials are collected to expressions with the same folded form. -/
theorem collect_of_alike {ts ts' : List Expr} (hne : ts ≠ []) (h : List.Forall₂ Alike ts ts') :
    CollectsAlike collect collect (ofTerms .sum ts) (ofTerms .sum ts') := by
  obtain _ | ⟨hfirst, _ | ⟨hsecond, hothers⟩⟩ := h
  · exact absurd rfl hne
  · exact ⟨_, _, collectUpTo_of_isMonomial hfirst.left _,
      collectUpTo_of_isMonomial hfirst.right _, hfirst.sameForm⟩
  · have hall := List.Forall₂.cons hfirst (.cons hsecond hothers)
    refine collectsAlike_sum hall (length_factorsAll_lt_openSize _ _ _) ?_
    rw [factorsAll_of_forall₂ hall]
    exact length_factorsAll_lt_openSize _ _ _

/-- Interchangeable polynomials are expanded and collected to expressions with the same folded
form. -/
theorem Interchangeable.collectsAlike {e e' : Expr} (h : Interchangeable e e') :
    CollectsAlike collect collect e.expand e'.expand := by
  have hmonomials : ∀ {p : Expr}, p.isPolynomial = true →
      ∀ t ∈ p.expand.terms .sum, t.isMonomial = true :=
    fun hp => isMonomialSum_iff.1 (isMonomialSum_expand hp)
  have hsame : List.Forall₂ (fun t t' => t.signature = t'.signature) (e.expand.terms .sum)
      (e'.expand.terms .sum) := by
    have hexpansion := h.expansion
    rwa [Expr.expansion, Expr.expansion, ← List.forall₂_eq_eq_eq, List.forall₂_map_left_iff,
      List.forall₂_map_right_iff] at hexpansion
  have hleft : List.Forall₂ (fun t t' => t.isMonomial = true ∧ t.signature = t'.signature)
      (e.expand.terms .sum) (e'.expand.terms .sum) :=
    forall₂_of_forall (fun t ht _ hsignature => ⟨hmonomials h.left t ht, hsignature⟩) hsame
  have halike : List.Forall₂ Alike (e.expand.terms .sum) (e'.expand.terms .sum) :=
    (forall₂_of_forall (fun t' ht' _ hboth => ⟨hboth.1, hmonomials h.right t' ht', hboth.2⟩)
      hleft.flip).flip
  have hcollect := collect_of_alike (terms_ne_nil .sum e.expand) halike
  rwa [ofTerms_terms, ofTerms_terms] at hcollect

end TermAlgebra.Expr
