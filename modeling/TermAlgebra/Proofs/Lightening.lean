import Mathlib.Tactic
import TermAlgebra.Proofs.Collecting
import TermAlgebra.Proofs.Expanded
import TermAlgebra.Proofs.Shrinking

/-!
# Collecting does not burden

Collecting common factors of an expanded tree makes its folded form no more complicated, and leaves
an integer (`Lightens`, `Expanded.lightens_of_collectUpTo`).

For a sum this is so because its collected terms are one of the candidates.  A term or a factor is
even relaxed (`Relaxes`): its outermost divisions are replaced by integers or by others that are no
more complicated, so that this is kept when the product around them is folded.

How much a list of folded terms adds to a sum is its `load`: what its terms count for, where the
integers among them count as one and not at all if they come to zero (`weight_folded_sum`).
-/

namespace TermAlgebra.Expr

/-! ### Easing without burdening -/

/-- A folded tree with its outermost divisions replaced by integers or by divisions that are no more
complicated. -/
abbrev Eased : Expr → Expr → Prop :=
  EasedBy fun e q => q.complexity ≤ e.complexity

/-- Easing a folded tree and folding it again does not make it more complicated. -/
lemma Eased.complexity_foldedForm_le {e e' : Expr} (he : Folded e) (h : Eased e e') :
    e'.foldedForm.complexity ≤ e.complexity := by
  induction he generalizing e' with
  | integer n =>
    cases h
    exact le_rfl
  | var s =>
    cases h
    exact le_rfl
  | @nary op a b rest _ _ _ ih =>
    cases h with
    | @nary _ _ _ _ es' hterms =>
      have hexact := isExact_of_forall₂_eased hterms
      have hne : es' ≠ [] := ne_nil_of_forall₂ hterms (List.cons_ne_nil _ _)
      have hweight := weight_foldedForm_ofTerms_le op hne hexact
      have hterms_le : ((es'.map foldedForm).map (weight op)).sum ≤
          ((a :: b :: rest).map (weight op)).sum := by
        rw [List.map_map]
        refine List.Forall₂.sum_le_sum ?_
        rw [List.forall₂_map_left_iff, List.forall₂_map_right_iff]
        refine (forall₂_of_forall (fun t ht t' htt' => ?_) hterms).flip
        exact Nat.add_le_add_right (ih t ht htt') op.cost
      have hnode := weight_ofTerms op (List.cons_ne_nil a (b :: rest))
      rw [weight] at hweight hnode
      rw [Expr.ofTerms] at hnode
      omega
  | division _ _ _ _ _ =>
    cases h with
    | division hfolded _ hle =>
      rw [hfolded.foldedForm_eq]
      exact hle

/-- Whether the folded form of one tree can be eased, without making any division more complicated,
and folded again to that of another one. -/
abbrev Relaxes : Expr → Expr → Prop :=
  RelaxesBy fun e q => q.complexity ≤ e.complexity

/-- Relaxing a tree does not make its folded form more complicated, and leaves an integer. -/
lemma Relaxes.foldedForm_le {e e' : Expr} (hexact : e.isExact = true) (h : Relaxes e e') :
    e'.foldedForm.complexity ≤ e.foldedForm.complexity ∧
      ∀ n, e.foldedForm = integer n → e'.foldedForm = integer n := by
  refine ⟨?_, h.foldedForm_eq_integer⟩
  obtain ⟨eased, heased, hform⟩ := h
  exact hform ▸ Eased.complexity_foldedForm_le (folded_foldedForm hexact) heased

/-! ### Collecting expanded trees -/

/-- What is known of a tree and its collected form: folding the latter gives nothing more
complicated, and the same integer if the tree is folded to one. -/
structure Lightens (e r : Expr) : Prop where
  complexity_le : r.foldedForm.complexity ≤ e.foldedForm.complexity
  integer : ∀ n, e.foldedForm = integer n → r.foldedForm = integer n

/-- Relaxing a tree does not burden it. -/
lemma Relaxes.lightens {e r : Expr} (he : e.isExact = true) (h : Relaxes e r) : Lightens e r := by
  obtain ⟨hle, hinteger⟩ := h.foldedForm_le he
  exact ⟨hle, hinteger⟩

/-- A folded tree is eased to itself. -/
lemma Folded.eased_self {e : Expr} (h : Folded e) : Eased e e := by
  induction h with
  | integer n => exact .integer n
  | var s => exact .var s
  | @nary op a b rest _ _ _ ih => exact .nary op (List.forall₂_same.2 ih)
  | division hl hr hirreducible =>
    exact .division (.division hl hr hirreducible) (Or.inl rfl) le_rfl

/-- An exact tree is relaxed to every tree with the same folded form. -/
lemma relaxes_of_foldedForm_eq {e r : Expr} (he : e.isExact = true)
    (h : e.foldedForm = r.foldedForm) : Relaxes e r :=
  ⟨e.foldedForm, (folded_foldedForm he).eased_self, (folded_foldedForm he).foldedForm_eq.trans h⟩

/-- A division is relaxed when its sides do not become more complicated. -/
lemma relaxes_division {l l' r r' : Expr} (hl : l.isExact = true) (hr : r.isExact = true)
    (hl' : l'.isExact = true) (hr' : r'.isExact = true)
    (hirreducible : integerQuotient? l.foldedForm r.foldedForm = none) (hleft : Lightens l l')
    (hright : Lightens r r') : Relaxes (division l r) (division l' r') := by
  have hform := foldedForm_division hl hr
  have hform' := foldedForm_division hl' hr'
  have hfolded := folded_foldedForm (isExact_division_iff.2 ⟨hl', hr'⟩)
  rw [hirreducible, Option.getD_none] at hform
  refine ⟨(division l' r').foldedForm, ?_, hfolded.foldedForm_eq⟩
  rw [hform]
  refine .division hfolded ?_ ?_
  · rw [hform']
    exact quotient_kind _ _
  · have hle := complexity_quotient_le l'.foldedForm r'.foldedForm
    have hleftle := hleft.complexity_le
    have hrightle := hright.complexity_le
    rw [hform', complexity]
    omega

/-- A node is relaxed when its terms are and nested ones are merged. -/
lemma Relaxes.gatherMerged (op : AssocOp) {es es' : List Expr} (hne : es ≠ [])
    (hexact : ∀ e ∈ es, e.isExact = true) (hexact' : ∀ e ∈ es', e.isExact = true)
    (h : List.Forall₂ Relaxes es es') :
    Relaxes (Expr.ofTerms op es) (gather op (merged op es')) := by
  have hmerged := (hereditary_isExact.merged op es').2 hexact'
  obtain ⟨eased, heased, hform⟩ := RelaxesBy.ofTerms op hne hexact hexact' h
  refine ⟨eased, heased, hform.trans ?_⟩
  rw [gather_of_isExact op hmerged, foldedForm_ofTerms_merged op (ne_nil_of_forall₂ h hne) hexact']

/-- The recollected factorizations of an exact sum are folded. -/
lemma folded_of_recollect {again : Expr → Except Fault Expr}
    (hagain : ∀ e r, again e = .ok r → Rewrites e r) (hempty : again empty = .ok empty)
    {terms : List Expr} (hne : terms ≠ []) (hexact : ∀ t ∈ terms, t.isExact = true)
    {F : Factorization} (hF : F ∈ usefulFactorizations terms) {c : Expr}
    (hc : recollect again F = .ok c) : Folded c := by
  have hsum := (hereditary_isExact.ofTerms .sum hne).2 hexact
  obtain ⟨e, he, hfold⟩ := exists_rewrites_of_recollect hagain hempty hc
  exact folded_of_foldConstants
    (((Rewrites.factor hne (List.mem_filter.1 hF).1).trans he).isExact hsum) hfold

/-- A recollected factorization is folded from the product of what is taken out and the collected
quotients and, if there are other terms, these collected. -/
lemma exists_parts_of_recollect {ts : List Expr} (hts : ∀ t ∈ ts, t.isExact = true) {f r : Expr}
    (hf : f ∈ factorsAll ts) {size : ℕ}
    (h : recollect (collectUpTo size) (factorizationBy f ts) = .ok r) :
    ∃ cofactor, collectUpTo size (factorizationBy f ts).cofactor = .ok cofactor ∧
      cofactor.isExact = true ∧
        (others f ts = [] ∧
            r = (Expr.join .product (factorizationBy f ts).factor cofactor).foldedForm ∨
          others f ts ≠ [] ∧ ∃ remainder,
            collectUpTo size (Expr.ofTerms .sum (others f ts)) = .ok remainder ∧
              remainder.isExact = true ∧
                r = (sum (Expr.join .product (factorizationBy f ts).factor cofactor) remainder
                  []).foldedForm) := by
  have hmem := mem_eraseDups_factorsAll (fun t ht => isDecimalFree_of_isExact (hts t ht)) hf
  obtain ⟨cofactor, remainder, hcofactor, hremainder, hr⟩ := recollect_eq_ok_iff.1 h
  have hcexact : cofactor.isExact = true :=
    (rewrites_of_collectUpTo hcofactor).isExact (hereditary_isExact.cofactor hts hmem)
  have hproduct := (hereditary_isExact.join .product _ cofactor).2
    ⟨hereditary_isExact.factor hts hmem, hcexact⟩
  have hform := foldedForm_of_foldConstants hr
  dsimp only [Factorization.expr] at hform
  refine ⟨cofactor, hcofactor, hcexact, ?_⟩
  by_cases hothers : others f ts = []
  · have hempty : (factorizationBy f ts).remainder = empty := by
      rw [factorizationBy, hothers]
      rfl
    rw [hempty, collectUpTo_empty, Except.ok.injEq] at hremainder
    rw [← hremainder, gather_join_empty] at hform
    exact Or.inl ⟨hothers, hform.symm⟩
  · have hexact : ∀ t ∈ others f ts, t.isExact = true :=
      fun t ht => hts t (List.mem_filter.1 ht).1
    rw [factorizationBy, gather_of_isExact .sum hexact] at hremainder
    have hrexact : remainder.isExact = true := (rewrites_of_collectUpTo hremainder).isExact
      ((hereditary_isExact.ofTerms .sum hothers).2 hexact)
    rw [gather_of_isExact .sum
      (List.forall_mem_cons.2 ⟨hproduct, List.forall_mem_singleton.2 hrexact⟩)] at hform
    exact Or.inr ⟨hothers, remainder, hremainder, hrexact, hform.symm⟩

/-- A collected sum is folded and no more complicated than its collected terms. -/
lemma lightens_of_collectSum {again : Expr → Except Fault Expr}
    (hagain : ∀ e r, again e = .ok r → Rewrites e r) (hempty : again empty = .ok empty)
    {terms collected : List Expr} (hne : terms ≠ []) (hexact : ∀ t ∈ terms, t.isExact = true)
    (hrewrites : List.Forall₂ Rewrites terms collected)
    (hrelaxes : List.Forall₂ Relaxes terms collected) {r : Expr}
    (h : collectSum again terms collected = .ok r) : Lightens (ofTerms .sum terms) r := by
  have hcollected : ∀ t ∈ collected, t.isExact = true := by
    intro t' ht'
    obtain ⟨t, ht, htt'⟩ := exists_mem_of_forall₂ hrewrites.flip ht'
    exact htt'.isExact (hexact t ht)
  have hsum := (hereditary_isExact.ofTerms .sum hne).2 hexact
  have hrelaxed : Relaxes (ofTerms .sum terms) (ofTerms .sum collected) :=
    RelaxesBy.ofTerms .sum hne hexact hcollected hrelaxes
  obtain ⟨e', hrewritten, hfold⟩ := exists_rewrites_of_collectSum hagain hempty hne hrewrites h
  have hfolded := folded_of_foldConstants (hrewritten.isExact hsum) hfold
  obtain ⟨plain, candidates, hplain, hcandidates, rfl⟩ := collectSum_eq_ok_iff.1 h
  rw [gather_of_isExact .sum hcollected] at hplain
  obtain ⟨hle, hinteger⟩ := hrelaxed.lightens hsum
  have hform := foldedForm_of_foldConstants hplain
  rw [hform] at hle hinteger
  refine ⟨?_, fun n hn => ?_⟩
  · rw [hfolded.foldedForm_eq]
    exact (complexity_simplestOf_le plain candidates plain List.mem_cons_self).trans hle
  · -- No candidate is simpler than an integer, and of equally simple ones the first is chosen.
    obtain rfl := hinteger n hn
    have hcomplexity : ∀ c ∈ candidates, (integer n).complexity ≤ c.complexity := by
      intro c hc
      obtain ⟨F, hF, hrecollect⟩ := exists_mem_of_forall₂ hcandidates.flip hc
      exact (folded_of_recollect hagain hempty hne hexact hF hrecollect).one_le_complexity
    rw [simplestOf_eq_first hcomplexity]
    exact (Folded.integer n).foldedForm_eq

/-- Collecting a sum does not burden it if collecting relaxes its terms. -/
lemma lightens_of_collectUpTo_sum {a b r : Expr} {rest : List Expr} {size : ℕ}
    (hexact : ∀ t ∈ a :: b :: rest, t.isExact = true)
    (hrelaxes : ∀ t ∈ a :: b :: rest, ∀ t', collectUpTo (size + 1) t = .ok t' → Relaxes t t')
    (h : collectUpTo (size + 1) (sum a b rest) = .ok r) : Lightens (sum a b rest) r := by
  have hrewrites : ∀ t ∈ a :: b :: rest, ∀ t', collectUpTo (size + 1) t = .ok t' → Rewrites t t' :=
    fun t _ t' => rewrites_of_collectUpTo
  obtain ⟨es, hes, hr⟩ := collectWith_sum_eq_ok_iff.1 h
  exact lightens_of_collectSum (fun _ _ => rewrites_of_collectUpTo) (collectUpTo_empty size)
    (List.cons_ne_nil _ _) hexact (forall₂_of_forall hrewrites hes)
    (forall₂_of_forall hrelaxes hes) hr

/-- Collecting an expanded tree does not burden it, and relaxes it if it is no sum. -/
theorem Expanded.lightens_of_collectUpTo {e r : Expr} (h : Expanded e) {size : ℕ}
    (hr : collectUpTo size e = .ok r) :
    Lightens e r ∧ (e.isNary .sum = false → Relaxes e r) := by
  have hself : ∀ {t : Expr}, t.isExact = true → Relaxes t t :=
    fun ht => relaxes_of_foldedForm_eq ht rfl
  cases size with
  | zero =>
    obtain rfl := Except.ok.inj hr
    exact ⟨(hself h.isExact).lightens h.isExact, fun _ => hself h.isExact⟩
  | succ size =>
    have hrewrites : ∀ e r, collectUpTo size e = .ok r → Rewrites e r :=
      fun _ _ => rewrites_of_collectUpTo
    induction h generalizing r with
    | integer n =>
      obtain rfl := Except.ok.inj hr
      exact ⟨(hself rfl).lightens rfl, fun _ => hself rfl⟩
    | var s =>
      obtain rfl := Except.ok.inj hr
      exact ⟨(hself rfl).lightens rfl, fun _ => hself rfl⟩
    | @nary op a b rest hexpanded hnary hzero ih =>
      have hnode := Expanded.nary op hexpanded hnary hzero
      have hexact : ∀ t ∈ a :: b :: rest, t.isExact = true := fun t ht => (hexpanded t ht).isExact
      have hrelaxes : ∀ t ∈ a :: b :: rest, ∀ t', collectWith (collectUpTo size) t = .ok t' →
          Relaxes t t' := fun t ht t' ht' => (ih t ht ht').2 (hnary t ht).1
      have hterms : ∀ t ∈ a :: b :: rest, ∀ t', collectWith (collectUpTo size) t = .ok t' →
          Rewrites t t' := fun t _ t' =>
        rewrites_of_collectWith hrewrites (collectUpTo_empty size)
      cases op with
      | sum =>
        refine ⟨?_, fun hsum => Bool.noConfusion hsum⟩
        exact lightens_of_collectUpTo_sum hexact hrelaxes hr
      | product =>
        obtain ⟨es, hes, rfl⟩ := collectWith_product_eq_ok_iff.1 hr
        have hesexact : ∀ t ∈ es, t.isExact = true := by
          intro t' ht'
          obtain ⟨t, ht, htt'⟩ := exists_mem_of_forall₂ hes.flip ht'
          exact (hterms t ht t' htt').isExact (hexact t ht)
        have hrelaxed : Relaxes (product a b rest) (gather .product (merged .product es)) :=
          Relaxes.gatherMerged .product (List.cons_ne_nil _ _) hexact hesexact
            (forall₂_of_forall hrelaxes hes)
        exact ⟨hrelaxed.lightens hnode.isExact, fun _ => hrelaxed⟩
    | @division l q hl hq hirreducible ihl ihq =>
      obtain ⟨l', hl', hr⟩ := Outcome.bind_eq_ok_iff.1 hr
      obtain ⟨q', hq', hr⟩ := Outcome.bind_eq_ok_iff.1 hr
      obtain rfl := Outcome.pure_eq_ok_iff.1 hr
      have hexact : ∀ {t t' : Expr}, t.isExact = true →
          collectWith (collectUpTo size) t = .ok t' → t'.isExact = true := fun ht ht' =>
        (rewrites_of_collectWith hrewrites (collectUpTo_empty size) ht').isExact ht
      have hrelaxed := relaxes_division hl.isExact hq.isExact (hexact hl.isExact hl')
        (hexact hq.isExact hq') hirreducible (ihl hl').1 (ihq hq').1
      exact ⟨hrelaxed.lightens (isExact_division_iff.2 ⟨hl.isExact, hq.isExact⟩),
        fun _ => hrelaxed⟩

/-! ### Loads -/

/-- How much folded terms add to a sum: what they count for, where the integers among them count as
one, and not at all if they come to zero. -/
def load (terms : List Expr) : ℕ :=
  ((terms.filter fun e => !e.isConstant).map (weight .sum)).sum +
    if (terms.filterMap integer?).sum = 0 then 0 else 3

/-- What an integer and other terms are folded to counts for the others, and for the integer unless
this is left out. -/
lemma weight_ofCondensed (op : AssocOp) (n : ℤ) (others : List Expr) :
    (ofCondensed op (n, others)).weight op = (others.map (weight op)).sum +
      if others ≠ [] ∧ n = op.total [] then 0 else 1 + op.cost := by
  unfold ofCondensed
  split
  · next h =>
    rw [weight_ofTerms op h.1, Nat.add_zero]
  · rw [weight_ofTerms op (List.cons_ne_nil _ _), List.map_cons, List.sum_cons, Nat.add_comm]
    rfl

/-- Terms come to the same load if they come to the same when they are folded. -/
lemma load_congr {terms terms' : List Expr}
    (h : condensed .sum terms = condensed .sum terms') : load terms = load terms' := by
  obtain ⟨htotal, hothers | ⟨hop, -⟩⟩ := condensed_eq_iff.1 h
  · rw [load, load, hothers]
    rw [AssocOp.total_sum, AssocOp.total_sum] at htotal
    rw [htotal]
  · exact AssocOp.noConfusion hop

/-- The order of terms does not matter for their load. -/
lemma load_perm {terms terms' : List Expr} (h : terms.Perm terms') : load terms = load terms' := by
  rw [load, load, ((h.filter _).map _).sum_eq, (h.filterMap integer?).sum_eq]

/-- The load of two lists of terms is at most that of both. -/
lemma load_append_le (terms others : List Expr) :
    load (terms ++ others) ≤ load terms + load others := by
  simp only [load, List.filter_append, List.map_append, List.sum_append, List.filterMap_append]
  split_ifs <;> omega

/-- Terms that are no constants add what they count for. -/
lemma load_append_of_not_isConstant {terms : List Expr} (h : ∀ t ∈ terms, t.isConstant = false)
    (others : List Expr) :
    load (terms ++ others) = (terms.map (weight .sum)).sum + load others := by
  have hfilter : terms.filter (fun e => !e.isConstant) = terms := by
    rw [List.filter_eq_self]
    intro t ht
    rw [h t ht, Bool.not_false]
  have hints : terms.filterMap integer? = [] := by
    rw [List.filterMap_eq_nil_iff]
    intro t ht
    have hconstant := h t ht
    cases t <;> first | rfl | exact Bool.noConfusion hconstant
  rw [load, load, List.filter_append, hfilter, List.filterMap_append, hints, List.nil_append,
    List.map_append, List.sum_append, Nat.add_assoc]

/-- A folded sum counts for the load of its terms, and at least for an integer. -/
lemma weight_folded_sum {terms : List Expr} (hne : terms ≠ []) (h : ∀ t ∈ terms, Folded t) :
    (folded .sum terms).weight .sum = max 3 (load terms) := by
  have hexact : ∀ t ∈ terms, t.isExact = true := fun t ht => (h t ht).isExact
  rw [folded_eq_ofCondensed hne hexact, condensed, if_neg (by simp), weight_ofCondensed, load,
    AssocOp.total_sum]
  by_cases hothers : terms.filter (fun e => !e.isConstant) = []
  · rw [if_neg fun hunit => hunit.1 hothers, hothers, List.map_nil, List.sum_nil]
    split_ifs <;> rfl
  · have hthree : 3 ≤ ((terms.filter fun e => !e.isConstant).map (weight .sum)).sum := by
      obtain ⟨t, ht⟩ := List.exists_mem_of_ne_nil _ hothers
      have hle := (h t (List.mem_filter.1 ht).1).one_le_complexity
      calc 3 ≤ t.weight .sum := Nat.add_le_add_right hle 2
        _ ≤ _ := List.single_le_sum (fun _ _ => Nat.zero_le _) _ (List.mem_map_of_mem ht)
    by_cases hzero : (terms.filterMap integer?).sum = 0
    · rw [if_pos ⟨hothers, hzero⟩, if_pos hzero, Nat.add_zero, max_eq_right hthree]
    · rw [if_neg fun hunit => hzero hunit.2, if_neg hzero]
      exact (max_eq_right (hthree.trans (Nat.le_add_right _ _))).symm

/-- The load of the terms of a folded tree is at most what the tree counts for. -/
lemma Folded.load_terms_le {e : Expr} (h : Folded e) : load (e.terms .sum) ≤ e.weight .sum := by
  have hweight := weight_folded_sum (terms_ne_nil .sum e) fun t ht => (h.terms .sum t ht).1
  rw [h.folded_terms] at hweight
  rw [hweight]
  exact le_max_right _ _

/-- It is just that if the tree is no integer. -/
lemma Folded.load_terms_eq {e : Expr} (h : Folded e) (hconstant : e.isConstant = false) :
    load (e.terms .sum) = e.weight .sum := by
  have hweight := weight_folded_sum (terms_ne_nil .sum e) fun t ht => (h.terms .sum t ht).1
  have htwo : 2 ≤ e.complexity := by
    by_contra hless
    obtain ⟨n, rfl⟩ := h.eq_integer (by omega)
    exact Bool.noConfusion hconstant
  rw [h.folded_terms] at hweight
  have hcost : e.weight .sum = e.complexity + 2 := rfl
  omega

/-- What does not burden a tree does not add to the load of its terms. -/
lemma Lightens.load_le {e r : Expr} (he : e.isExact = true) (hr : r.isExact = true)
    (h : Lightens e r) :
    load (r.foldedForm.terms .sum) ≤ load (e.foldedForm.terms .sum) := by
  have hfolded := folded_foldedForm he
  by_cases hconstant : e.foldedForm.isConstant = true
  · obtain ⟨n, hn⟩ := hfolded.eq_integer_of_isConstant hconstant
    rw [hn, h.integer n hn]
  · rw [Bool.not_eq_true] at hconstant
    calc load (r.foldedForm.terms .sum) ≤ r.foldedForm.weight .sum :=
          (folded_foldedForm hr).load_terms_le
      _ ≤ e.foldedForm.weight .sum := Nat.add_le_add_right h.complexity_le 2
      _ = load (e.foldedForm.terms .sum) := (hfolded.load_terms_eq hconstant).symm

end TermAlgebra.Expr
