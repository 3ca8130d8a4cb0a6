import Mathlib.Tactic
import TermAlgebra.Proofs.FoldingLaws
import TermAlgebra.Proofs.Settling

/-!
# Simplification does not grow a tree

The simplified form of an exact tree is no more complicated than its folded form, whether the run
comes to rest or is broken off (`complexity_simplify_le`).  More is true: it is the folded form, or
strictly less complicated (`Improves`).

It is not enough that parts of a tree get simpler: a product that takes the place of a quotient of
the same complexity may be merged into the product around it and leave a constant more.  What is
true is that the outermost divisions may be replaced by integers and by other divisions.  `EasedBy`
says this of a folded tree, `RelaxesBy` of the trees before folding, both with a condition on what
takes the place of a division, and folding keeps it (`RelaxesBy.ofTerms`), so that resolving
divisions only relaxes a tree (`relaxes_of_resolveDivisions`).  From this a step and then a run only
reduces a tree (`reduces_of_stepWith`, `reduces_of_runWith`), by induction on the division depth.
-/

namespace TermAlgebra.Expr

/-! ### Improvements -/

/-- Whether a tree is another one or a strictly less complicated one. -/
def Improves (e r : Expr) : Prop :=
  r = e ∨ r.complexity < e.complexity

/-- An improvement is no more complicated. -/
lemma Improves.complexity_le {e r : Expr} (h : Improves e r) : r.complexity ≤ e.complexity := by
  rcases h with rfl | hless
  · exact le_rfl
  · exact hless.le

/-- Improving twice is improving. -/
lemma Improves.trans {a b c : Expr} (hab : Improves a b) (hbc : Improves b c) : Improves a c := by
  rcases hbc with rfl | hless
  · exact hab
  · exact Or.inr (hless.trans_le hab.complexity_le)

/-- Improving the sides of a division of which no integer is made improves the division. -/
lemma improves_quotient {l l' r r' : Expr} (hnone : integerQuotient? l r = none)
    (hl : Improves l l') (hr : Improves r r') :
    Improves (division l r) ((integerQuotient? l' r').getD (division l' r')) := by
  have hquotient := complexity_quotient_le l' r'
  have hlle := hl.complexity_le
  have hrle := hr.complexity_le
  rcases hl with rfl | hless
  · rcases hr with rfl | hless
    · rw [hnone]
      exact Or.inl rfl
    · right
      rw [complexity]
      omega
  · right
    rw [complexity]
    omega

/-! ### Eased trees -/

/-- A folded tree with its outermost divisions replaced by integers or by divisions, under a
condition on each of them and on what takes its place. -/
inductive EasedBy (D : Expr → Expr → Prop) : Expr → Expr → Prop
  | integer (n : ℤ) : EasedBy D (integer n) (integer n)
  | var (s : String) : EasedBy D (var s) (var s)
  | nary (op : AssocOp) {a b : Expr} {rest es : List Expr} :
      List.Forall₂ (EasedBy D) (a :: b :: rest) es → EasedBy D (nary op a b rest) (ofTerms op es)
  | division {l r q : Expr} : Folded q → q.isDivision = true ∨ q.isConstant = true →
      D (division l r) q → EasedBy D (division l r) q

/-- Integers and divisions are no nodes of an associative operation. -/
lemma isNary_of_isDivision_or_isConstant {op : AssocOp} {e : Expr}
    (h : e.isDivision = true ∨ e.isConstant = true) : e.isNary op = false := by
  cases e <;> simp_all [isDivision, isConstant, isNary]

section

variable {D : Expr → Expr → Prop}

/-- Terms are eased one by one. -/
lemma EasedBy.ofTerms {op : AssocOp} {es es' : List Expr} (hne : es ≠ [])
    (h : List.Forall₂ (EasedBy D) es es') : EasedBy D (ofTerms op es) (ofTerms op es') := by
  match es, es', hne, h with
  | [e], [e'], _, .cons he .nil => exact he
  | a :: b :: rest, _, _, h => exact .nary op h

/-- The terms of an eased tree are those of the tree eased one by one. -/
lemma EasedBy.terms {e e' : Expr} (h : EasedBy D e e') (op : AssocOp) :
    List.Forall₂ (EasedBy D) (e.terms op) (e'.terms op) := by
  have hsingle : e.isNary op = false → e'.isNary op = false →
      List.Forall₂ (EasedBy D) (e.terms op) (e'.terms op) := by
    intro hnot hnot'
    rw [terms_of_not_isNary hnot, terms_of_not_isNary hnot']
    exact .cons h .nil
  cases h with
  | integer n => exact hsingle rfl rfl
  | var s => exact hsingle rfl rfl
  | division _ hkind _ => exact hsingle rfl (isNary_of_isDivision_or_isConstant hkind)
  | nary o hterms =>
    obtain _ | ⟨ha, _ | ⟨hb, hrest⟩⟩ := hterms
    by_cases ho : o = op
    · subst ho
      rw [terms_nary, Expr.ofTerms, terms_nary]
      exact .cons ha (.cons hb hrest)
    · exact hsingle (decide_eq_false ho) (decide_eq_false ho)

/-- The terms of eased operands are those of the operands eased one by one. -/
lemma eased_merged {es es' : List Expr} (h : List.Forall₂ (EasedBy D) es es') (op : AssocOp) :
    List.Forall₂ (EasedBy D) (merged op es) (merged op es') := by
  induction h with
  | nil => exact .nil
  | cons he _ ih =>
    rw [merged_cons, merged_cons]
    exact List.rel_append (he.terms op) ih

/-- Eased trees are exact. -/
lemma EasedBy.isExact {e e' : Expr} (h : EasedBy D e e') : e'.isExact = true := by
  induction e using Expr.induction generalizing e' with
  | nary op a b rest ih =>
    cases h with
    | nary _ hterms =>
      rw [hereditary_isExact.ofTerms op (ne_nil_of_forall₂ hterms (List.cons_ne_nil _ _))]
      intro t' ht'
      obtain ⟨t, ht, htt'⟩ := exists_mem_of_forall₂ hterms.flip ht'
      exact ih t ht htt'
  | division l r _ _ =>
    cases h with
    | division hfolded _ _ => exact hfolded.isExact
  | integer n =>
    cases h
    rfl
  | var s =>
    cases h
    rfl
  | _ => cases h

/-- Trees that are eased one by one are exact. -/
lemma isExact_of_forall₂_eased {es es' : List Expr} (h : List.Forall₂ (EasedBy D) es es') :
    ∀ e ∈ es', e.isExact = true :=
  forall_mem_right_of_forall₂ h fun _ _ hee' => hee'.isExact

/-- Terms that are improved by folding stay the same, or count for strictly less. -/
lemma eq_or_weight_lt_of_improves (op : AssocOp) {es es' : List Expr}
    (h : List.Forall₂ (fun e e' => Improves e e'.foldedForm) es es') :
    es'.map foldedForm = es ∨
      ((es'.map foldedForm).map (weight op)).sum < (es.map (weight op)).sum := by
  induction h with
  | nil => exact Or.inl rfl
  | @cons e e' es es' he _ ih =>
    have hle := he.complexity_le
    simp only [List.map_cons, List.sum_cons, weight] at ih ⊢
    rcases ih with hes | hless
    · rw [hes]
      rcases he with he | hless
      · exact Or.inl (congrArg (· :: es) he)
      · right
        omega
    · right
      omega

/-- Improving the outermost divisions of a folded tree and folding it again improves it. -/
lemma EasedBy.improves {e e' : Expr} (he : Folded e) (h : EasedBy Improves e e') :
    Improves e e'.foldedForm := by
  have hefolded := he
  induction he generalizing e' with
  | integer n =>
    cases h
    exact Or.inl rfl
  | var s =>
    cases h
    exact Or.inl rfl
  | @nary op a b rest hterms _ _ ih =>
    cases h with
    | @nary _ _ _ _ es' hes' =>
      have hexact := isExact_of_forall₂_eased hes'
      have hne : es' ≠ [] := ne_nil_of_forall₂ hes' (List.cons_ne_nil _ _)
      rcases eq_or_weight_lt_of_improves op
        (forall₂_of_forall (fun t ht t' htt' => ih t ht htt' (hterms t ht)) hes') with hsame | hless
      · left
        have hself : (a :: b :: rest).map foldedForm = a :: b :: rest :=
          (List.map_congr_left fun t ht => (hterms t ht).foldedForm_eq).trans (List.map_id _)
        have hnode := hefolded.foldedForm_eq
        rw [← Expr.ofTerms, foldedForm_ofTerms op (List.cons_ne_nil _ _)
          (fun t ht => (hterms t ht).isExact), hself] at hnode
        rw [foldedForm_ofTerms op hne hexact, hsame, hnode, Expr.ofTerms]
      · right
        have hweight := weight_foldedForm_ofTerms_le op hne hexact
        have hnode := weight_ofTerms op (List.cons_ne_nil a (b :: rest))
        rw [weight] at hweight hnode
        rw [Expr.ofTerms] at hnode
        omega
  | division _ _ _ _ _ =>
    cases h with
    | division hfolded _ himproves =>
      rw [hfolded.foldedForm_eq]
      exact himproves

/-- Of eased terms the integers stay, and the others are eased. -/
lemma exists_eased_others (op : AssocOp) {terms eased : List Expr}
    (hexact : ∀ t ∈ terms, t.isExact = true) (h : List.Forall₂ (EasedBy D) terms eased) :
    ∃ others, List.Forall₂ (EasedBy D) (terms.filter fun e => !e.isConstant) others ∧
      condensed op (merged op (eased.map foldedForm)) =
        condensed op (integer (op.total (terms.filterMap integer?)) ::
          merged op (others.map foldedForm)) := by
  induction h with
  | nil => exact ⟨[], .nil, (condensed_unit []).symm⟩
  | @cons t t' ts ts' ht _ ih =>
    rw [List.forall_mem_cons] at hexact
    obtain ⟨others, hothers, hsame⟩ := ih hexact.2
    rw [List.map_cons, merged_cons]
    by_cases hconstant : t.isConstant = true
    · cases ht with
      | integer n =>
        refine ⟨others, hothers, ?_⟩
        calc condensed op ([integer n] ++ merged op (ts'.map foldedForm))
            = condensed op ([integer n] ++ integer (op.total (ts.filterMap integer?)) ::
                merged op (others.map foldedForm)) := condensed_append_congr rfl hsame
          _ = _ := by
            rw [List.singleton_append, condensed_integer_integer, ← AssocOp.total_cons]
            rfl
      | _ => exact Bool.noConfusion hconstant
    · rw [Bool.not_eq_true] at hconstant
      refine ⟨t' :: others, ?_, ?_⟩
      · rw [List.filter_cons_of_pos (by rw [hconstant]; rfl)]
        exact .cons ht hothers
      · rw [List.filterMap_cons_none ((isConstant_eq_false_iff hexact.1).1 hconstant),
          List.map_cons, merged_cons, ← condensed_append_integer]
        exact condensed_append_congr rfl hsame

/-- Eased terms are folded to what the folded terms are eased and folded to. -/
lemma exists_eased_folded (op : AssocOp) {terms eased : List Expr} (hne : terms ≠ [])
    (hexact : ∀ t ∈ terms, t.isExact = true) (h : List.Forall₂ (EasedBy D) terms eased) :
    ∃ e, EasedBy D (folded op terms) e ∧ e.foldedForm = (ofTerms op eased).foldedForm := by
  have heased := isExact_of_forall₂_eased h
  have heasedne : eased ≠ [] := ne_nil_of_forall₂ h hne
  by_cases hzero : op = .product ∧ integer 0 ∈ terms
  · obtain ⟨rfl, hmem⟩ := hzero
    obtain ⟨t, ht, heased0⟩ := exists_mem_of_forall₂ h hmem
    cases heased0
    have hmem' : integer 0 ∈ merged .product (eased.map foldedForm) :=
      mem_merged.2 ⟨_, List.mem_map_of_mem ht, List.mem_cons_self⟩
    rw [folded_eq_zero hmem, foldedForm_ofTerms .product heasedne heased, folded_eq_zero hmem']
    exact ⟨integer 0, .integer 0, rfl⟩
  · have hnot : ¬ (op = .product ∧ op.total (terms.filterMap integer?) = 0) := by
      rintro ⟨rfl, htotal⟩
      exact hzero ⟨rfl, total_product_eq_zero_iff.1 htotal⟩
    obtain ⟨others, hothers, hsame⟩ := exists_eased_others op hexact h
    have hfolded : ∀ es : List Expr, es ≠ [] → (∀ e ∈ es, e.isExact = true) →
        condensed op (merged op (es.map foldedForm)) =
          condensed op (merged op (eased.map foldedForm)) →
        (ofTerms op es).foldedForm = (ofTerms op eased).foldedForm := by
      intro es hesne hes hsame
      have hforms : ∀ {ts : List Expr}, (∀ t ∈ ts, t.isExact = true) →
          ∀ t ∈ merged op (ts.map foldedForm), t.isExact = true :=
        fun hts t ht => (folded_merged (folded_map_foldedForm hts) t ht).1.isExact
      rw [foldedForm_ofTerms op hesne hes, foldedForm_ofTerms op heasedne heased,
        folded_eq_ofCondensed (merged_ne_nil op (by simpa using hesne)) (hforms hes),
        folded_eq_ofCondensed (merged_ne_nil op (by simpa using heasedne)) (hforms heased), hsame]
    have hothersexact := isExact_of_forall₂_eased hothers
    rw [folded_eq_ofCondensed hne hexact, condensed, if_neg hnot, ofCondensed]
    split
    · next hunit =>
      have hothersne : others ≠ [] := ne_nil_of_forall₂ hothers hunit.1
      refine ⟨_, .ofTerms hunit.1 hothers, hfolded others hothersne hothersexact ?_⟩
      have htotal : op.total (terms.filterMap integer?) = op.total [] := hunit.2
      rw [hsame, htotal, condensed_unit]
    · refine ⟨_, .ofTerms (List.cons_ne_nil _ _) (.cons (.integer _) hothers),
        hfolded _ (List.cons_ne_nil _ _) (List.forall_mem_cons.2 ⟨rfl, hothersexact⟩) ?_⟩
      rw [hsame]
      rfl

/-! ### Relaxed trees -/

/-- Whether the folded form of one tree can be eased and folded again to that of another one, under
a condition on the divisions that are replaced and on what takes their place. -/
def RelaxesBy (D : Expr → Expr → Prop) (e e' : Expr) : Prop :=
  ∃ eased, EasedBy D e.foldedForm eased ∧ eased.foldedForm = e'.foldedForm

/-- A node is relaxed when its terms are. -/
lemma RelaxesBy.ofTerms (op : AssocOp) {es es' : List Expr} (hne : es ≠ [])
    (hexact : ∀ e ∈ es, e.isExact = true) (hexact' : ∀ e ∈ es', e.isExact = true)
    (h : List.Forall₂ (RelaxesBy D) es es') : RelaxesBy D (ofTerms op es) (ofTerms op es') := by
  obtain ⟨eased, heased, hforms⟩ : ∃ eased, List.Forall₂ (EasedBy D) (es.map foldedForm) eased ∧
      eased.map foldedForm = es'.map foldedForm := by
    clear hne hexact hexact'
    induction h with
    | nil => exact ⟨[], .nil, rfl⟩
    | cons he _ ih =>
      obtain ⟨eased, heased, hform⟩ := he
      obtain ⟨others, hothers, hforms⟩ := ih
      refine ⟨eased :: others, .cons heased hothers, ?_⟩
      rw [List.map_cons, List.map_cons, hform, hforms]
  have hne' : es' ≠ [] := ne_nil_of_forall₂ h hne
  have heasedne : eased ≠ [] := ne_nil_of_forall₂ heased (by simpa using hne)
  have hfolded : ∀ t ∈ merged op (es.map foldedForm), Folded t ∧ t.isNary op = false :=
    folded_merged (folded_map_foldedForm hexact)
  obtain ⟨e, he, hform⟩ := exists_eased_folded op
    (merged_ne_nil op (by simpa using hne)) (fun t ht => (hfolded t ht).1.isExact)
    (eased_merged heased op)
  have hexacteased := isExact_of_forall₂_eased heased
  refine ⟨e, ?_, ?_⟩
  · rw [foldedForm_ofTerms op hne hexact]
    exact he
  · rw [hform, foldedForm_ofTerms_merged op heasedne hexacteased,
      foldedForm_ofTerms op heasedne hexacteased, foldedForm_ofTerms op hne' hexact', hforms]

/-- A negation is relaxed when its operand is. -/
lemma RelaxesBy.negation {e e' : Expr} (hexact : e.isExact = true) (hexact' : e'.isExact = true)
    (h : RelaxesBy D e e') : RelaxesBy D (negation e) (negation e') := by
  have hone : RelaxesBy D (integer (-1)) (integer (-1)) := ⟨_, .integer (-1), rfl⟩
  obtain ⟨eased, heased, hform⟩ := RelaxesBy.ofTerms .product (List.cons_ne_nil _ _)
    (List.forall_mem_cons.2 ⟨rfl, List.forall_mem_singleton.2 hexact⟩)
    (List.forall_mem_cons.2 ⟨rfl, List.forall_mem_singleton.2 hexact'⟩)
    (.cons hone (.cons h .nil))
  refine ⟨eased, ?_, ?_⟩
  · rw [foldedForm_negation_eq_product hexact]
    exact heased
  · rw [foldedForm_negation_eq_product hexact']
    exact hform

/-- Relaxing a tree leaves an integer. -/
lemma RelaxesBy.foldedForm_eq_integer {e e' : Expr} (h : RelaxesBy D e e') (n : ℤ)
    (hn : e.foldedForm = integer n) : e'.foldedForm = integer n := by
  obtain ⟨eased, heased, hform⟩ := h
  rw [hn] at heased
  cases heased
  exact hform.symm

end

/-- Improving the outermost divisions of a tree improves its folded form. -/
lemma RelaxesBy.improves {e e' : Expr} (hexact : e.isExact = true) (h : RelaxesBy Improves e e') :
    Improves e.foldedForm e'.foldedForm := by
  obtain ⟨eased, heased, hform⟩ := h
  exact hform ▸ heased.improves (folded_foldedForm hexact)

/-! ### Reduced trees -/

/-- What is known of a tree and its treated form: this improves the folded form of the tree, as it
stands and folded, and is the same integer if that is one. -/
structure Reduces (e r : Expr) : Prop where
  improves : Improves e.foldedForm r
  improves_folded : Improves e.foldedForm r.foldedForm
  integer : ∀ n, e.foldedForm = integer n → r = integer n

/-- The treated form is no more complicated than the folded form of the tree. -/
lemma Reduces.complexity_le {e r : Expr} (h : Reduces e r) :
    r.complexity ≤ e.foldedForm.complexity :=
  h.improves.complexity_le

/-- Folded, the treated form is no more complicated than the folded form of the tree. -/
lemma Reduces.folded_le {e r : Expr} (h : Reduces e r) :
    r.foldedForm.complexity ≤ e.foldedForm.complexity :=
  h.improves_folded.complexity_le

/-- Only the folded form of the tree matters. -/
lemma Reduces.of_foldedForm_eq {e e' r : Expr} (h : e.foldedForm = e'.foldedForm)
    (hr : Reduces e r) : Reduces e' r :=
  ⟨h ▸ hr.improves, h ▸ hr.improves_folded, fun n hn => hr.integer n (h.trans hn)⟩

/-- Reducing twice is reducing. -/
lemma Reduces.trans {a b c : Expr} (hab : Reduces a b) (hbc : Reduces b c) : Reduces a c where
  improves := hab.improves_folded.trans hbc.improves
  improves_folded := hab.improves_folded.trans hbc.improves_folded
  integer n hn := by
    obtain rfl := hab.integer n hn
    exact hbc.integer n rfl

/-- Reducing what a tree is relaxed to. -/
lemma RelaxesBy.reduces {a b c : Expr} (hexact : a.isExact = true) (hab : RelaxesBy Improves a b)
    (hbc : Reduces b c) : Reduces a c := by
  have himproves := hab.improves hexact
  exact ⟨himproves.trans hbc.improves, himproves.trans hbc.improves_folded,
    fun n hn => hbc.integer n (hab.foldedForm_eq_integer n hn)⟩

/-- A tree that is folded to an integer is reduced to it. -/
lemma reduces_integer {e : Expr} {n : ℤ} (h : e.foldedForm = Expr.integer n) :
    Reduces e (Expr.integer n) where
  improves := Or.inl h.symm
  improves_folded := Or.inl ((Folded.integer n).foldedForm_eq.trans h.symm)
  integer _ hm := h.symm.trans hm

/-- A division is reduced to the quotient of its reduced sides. -/
lemma Reduces.quotient {l l' r r' : Expr} (he : (division l r).isExact = true)
    (hlexact : l'.isExact = true) (hrexact : r'.isExact = true) (hl : Reduces l l')
    (hr : Reduces r r') :
    Reduces (division l r) ((integerQuotient? l' r').getD (division l' r')) := by
  have hform := foldedForm_division (isExact_division_iff.1 he).1 (isExact_division_iff.1 he).2
  cases hfolded : integerQuotient? l.foldedForm r.foldedForm with
  | some c =>
    -- The sides are reduced to the integers that they are folded to.
    obtain ⟨a, b, hla, hrb, -, -, rfl⟩ := integerQuotient?_eq_some_iff.1 hfolded
    obtain rfl := hl.integer a hla
    obtain rfl := hr.integer b hrb
    rw [hfolded, Option.getD_some] at hform
    rw [hla, hrb] at hfolded
    rw [hfolded, Option.getD_some]
    exact reduces_integer hform
  | none =>
    rw [hfolded, Option.getD_none] at hform
    refine ⟨?_, ?_, fun n hn => Expr.noConfusion (hform.symm.trans hn)⟩
    · rw [hform]
      exact improves_quotient hfolded hl.improves hr.improves
    · rw [hform, foldedForm_quotient hlexact hrexact]
      exact improves_quotient hfolded hl.improves_folded hr.improves_folded

/-- Whether a treatment reduces all exact trees below a division depth. -/
def ReducesBelow (side : Expr → Traced Expr) (depth : ℕ) : Prop :=
  ∀ e r : Expr, e.isExact = true → e.divisionDepth < depth →
    (side e).result = .ok r → Reduces e r

section

variable {side : Expr → Traced Expr} {depth : ℕ} (hside : ReducesBelow side depth)
  (hrewrites : ∀ e r : Expr, (side e).Yields (fun _ => True) r → Rewrites e r)

include hside hrewrites

/-- Resolving a division reduces it, to an integer or to a division. -/
lemma reduces_of_resolveDivision {l r q : Expr} (he : (division l r).isExact = true)
    (hdepth : (division l r).divisionDepth ≤ depth)
    (h : (resolveDivision side l r).Yields (fun _ => True) q) :
    Reduces (division l r) q ∧
      (q.foldedForm.isDivision = true ∨ q.foldedForm.isConstant = true) := by
  obtain ⟨hlexact, hrexact⟩ := isExact_division_iff.1 he
  have hleft : ∀ l', (side l).Yields (fun _ => True) l' → l'.isExact = true :=
    fun l' hl => (hrewrites l l' hl).isExact hlexact
  have hright : ∀ r', (side r).Yields (fun _ => True) r' → r'.isExact = true :=
    fun r' hr => (hrewrites r r' hr).isExact hrexact
  rw [divisionDepth, Nat.add_one_le_iff] at hdepth
  rcases quotient_of_resolveDivision he hleft hright h with hq | ⟨-, l', r', hl, hr, rfl⟩
  · have hform := foldedForm_quotient hlexact hrexact
    rw [hq, Option.getD_some] at hform
    obtain ⟨a, b, rfl, rfl, -, -, rfl⟩ := integerQuotient?_eq_some_iff.1 hq
    refine ⟨reduces_integer ?_, Or.inr ?_⟩
    · rw [foldedForm_division hlexact hrexact, ← hform]
      exact (Folded.integer (a / b)).foldedForm_eq
    · rw [(Folded.integer (a / b)).foldedForm_eq]
      rfl
  · have hl' := hside l l' hlexact ((le_max_left _ _).trans_lt hdepth) hl.1
    have hr' := hside r r' hrexact ((le_max_right _ _).trans_lt hdepth) hr.1
    refine ⟨.quotient he (hleft l' hl) (hright r' hr) hl' hr', ?_⟩
    rw [foldedForm_quotient (hleft l' hl) (hright r' hr)]
    exact quotient_kind _ _

/-- Resolving the outermost divisions of a tree relaxes it. -/
lemma relaxes_of_resolveDivisions {e flat : Expr} (he : e.isExact = true)
    (hdepth : e.divisionDepth ≤ depth)
    (h : (resolveDivisions side e).Yields (fun _ => True) flat) : RelaxesBy Improves e flat := by
  have hexact : ∀ {t t' : Expr}, (resolveDivisions side t).Yields (fun _ => True) t' →
      t.isExact = true → t'.isExact = true :=
    fun ht => (rewrites_of_yields_resolveDivisions hrewrites ht).isExact
  induction e using Expr.induction generalizing flat with
  | empty => exact Bool.noConfusion he
  | decimal d => exact Bool.noConfusion he
  | integer n =>
    obtain rfl := Traced.yields_pure.1 h
    exact ⟨_, .integer n, rfl⟩
  | var s =>
    obtain rfl := Traced.yields_pure.1 h
    exact ⟨_, .var s, rfl⟩
  | negation e ih =>
    obtain ⟨e', he', rfl⟩ := yields_resolveDivisions_negation_iff.1 h
    have heexact := (hereditary_isExact.negation e).1 he
    exact (ih heexact hdepth he').negation heexact (hexact he' heexact)
  | nary op a b rest ih =>
    rw [hereditary_isExact.nary] at he
    rw [divisionDepth_nary_le_iff] at hdepth
    obtain ⟨es, hes, rfl⟩ := yields_resolveDivisions_nary_iff.1 h
    refine RelaxesBy.ofTerms op (List.cons_ne_nil a (b :: rest)) he (fun t' ht' => ?_)
      (forall₂_of_forall (fun t ht t' htt' => ih t ht (he t ht) (hdepth t ht) htt') hes)
    obtain ⟨t, ht, htt'⟩ := exists_mem_of_forall₂ hes.flip ht'
    exact hexact htt' (he t ht)
  | division l r _ _ =>
    obtain ⟨hreduces, hkind⟩ := reduces_of_resolveDivision hside hrewrites he hdepth h
    have hfolded := folded_foldedForm (hexact h he)
    obtain ⟨hlexact, hrexact⟩ := isExact_division_iff.1 he
    refine ⟨flat.foldedForm, ?_, hfolded.foldedForm_eq⟩
    have hform := foldedForm_division hlexact hrexact
    cases hquotient : integerQuotient? l.foldedForm r.foldedForm with
    | none =>
      rw [hquotient, Option.getD_none] at hform
      have himproves := hreduces.improves_folded
      rw [hform] at himproves ⊢
      exact .division hfolded hkind himproves
    | some c =>
      obtain ⟨a, b, -, -, -, -, rfl⟩ := integerQuotient?_eq_some_iff.1 hquotient
      rw [hquotient, Option.getD_some] at hform
      obtain rfl := hreduces.integer _ hform
      rw [hform, (Folded.integer (a / b)).foldedForm_eq]
      exact .integer (a / b)
  | parentheses e ih =>
    have heexact := isExact_parentheses_iff.1 he
    obtain ⟨eased, heased, hform⟩ := ih heexact hdepth h
    exact ⟨eased, foldedForm_parentheses heexact ▸ heased, hform⟩

/-- A tree that is resolved to a division is reduced to it. -/
lemma reduces_of_isDivision {e flat : Expr} (he : e.isExact = true)
    (hdepth : e.divisionDepth ≤ depth)
    (h : (resolveDivisions side e).Yields (fun _ => True) flat)
    (hdivision : flat.isDivision = true) :
    Reduces e flat := by
  induction e using Expr.induction generalizing flat with
  | negation e _ =>
    obtain ⟨e', -, rfl⟩ := yields_resolveDivisions_negation_iff.1 h
    exact Bool.noConfusion hdivision
  | nary op a b rest _ =>
    obtain ⟨es, hes, rfl⟩ := yields_resolveDivisions_nary_iff.1 h
    obtain _ | ⟨_, _ | ⟨_, _⟩⟩ := hes
    exact Bool.noConfusion hdivision
  | division l r _ _ => exact (reduces_of_resolveDivision hside hrewrites he hdepth h).1
  | parentheses e ih =>
    have heexact := isExact_parentheses_iff.1 he
    exact (ih heexact hdepth h hdivision).of_foldedForm_eq (foldedForm_parentheses heexact).symm
  | _ =>
    obtain rfl := Traced.yields_pure.1 h
    exact Bool.noConfusion hdivision

/-- A step reduces a tree. -/
lemma reduces_of_stepWith {e e' : Expr} (he : e.isExact = true) (hdepth : e.divisionDepth ≤ depth)
    (h : (stepWith side e).Yields (fun _ => True) e') : Reduces e e' := by
  obtain ⟨flat, hflat, h⟩ :=
    (yields_stepWith_iff (isExact_of_yields_resolveDivisions_flatten hrewrites he)).1 h
  have hflatten := rewrites_flatten e
  have hflatexact := hflatten.isExact he
  have hflatdepth := hflatten.divisionDepth_le.trans hdepth
  refine Reduces.of_foldedForm_eq (foldedForm_flatten he) ?_
  split at h
  · next hdivision =>
    subst h
    exact reduces_of_isDivision hside hrewrites hflatexact hflatdepth hflat hdivision
  · have hexact := (rewrites_of_yields_resolveDivisions hrewrites hflat).isExact hflatexact
    obtain ⟨direct, collected, folded, hdirect, -, -, hdirectfolded, hfolded, rfl⟩ :=
      candidates_of_step (p := fun _ => True) (e := e) hexact h
    have hform := foldedForm_of_foldConstants hdirect
    have hbest := (hdirectfolded.simplestOf hfolded).foldedForm_eq
    have himproves : Improves direct (simplestOf direct [folded]) := by
      rw [simplestOf_singleton]
      split
      · next hless => exact Or.inr hless
      · exact Or.inl rfl
    have hrelaxes := relaxes_of_resolveDivisions hside hrewrites hflatexact hflatdepth hflat
    refine hrelaxes.reduces hflatexact ⟨by rwa [hform], by rwa [hform, hbest],
      fun n hn => ?_⟩
    rw [hform] at hn
    subst hn
    have hpos : ¬ folded.complexity < (integer n).complexity :=
      Nat.not_lt.2 hfolded.one_le_complexity
    rw [simplestOf_singleton, if_neg hpos]

/-! ### Runs -/

omit hside hrewrites in
/-- The canonical one of some trees is no more complicated than any of them. -/
lemma complexity_le_of_canonical {es : List Expr} {r t : Expr} (h : canonical es = .ok r)
    (ht : t ∈ es) : r.complexity ≤ t.complexity := by
  have hbetter : ∀ best e : Expr,
      (if e.simpler best then e else best).complexity ≤ min best.complexity e.complexity := by
    intro best e
    unfold simpler
    by_cases hless : e.complexity < best.complexity
    · rw [decide_eq_true hless, Bool.true_or, if_pos rfl]
      exact le_min hless.le le_rfl
    · rw [decide_eq_false hless, Bool.false_or]
      split
      · next hsame =>
        rw [Bool.and_eq_true, decide_eq_true_eq] at hsame
        exact le_min hsame.1.le le_rfl
      · exact le_min le_rfl (Nat.le_of_not_lt hless)
  have hfold : ∀ (others : List Expr) (first : Expr), ∀ t ∈ first :: others,
      (others.foldl (fun best e => if e.simpler best then e else best) first).complexity ≤
        t.complexity := by
    intro others
    induction others with
    | nil =>
      intro first t ht
      rw [List.mem_singleton.1 ht]
      exact le_rfl
    | cons e others ih =>
      intro first t ht
      have hfirst := (ih _ _ List.mem_cons_self).trans (hbetter first e)
      rw [List.foldl_cons]
      rcases List.mem_cons.1 ht with rfl | ht
      · exact hfirst.trans (min_le_left _ _)
      · rcases List.mem_cons.1 ht with rfl | ht
        · exact hfirst.trans (min_le_right _ _)
        · exact ih _ t (List.mem_cons_of_mem _ ht)
  cases es with
  | nil => exact absurd ht List.not_mem_nil
  | cons first others =>
    rw [canonical] at h
    split at h
    · obtain rfl := Except.ok.inj h
      exact hfold others first t ht
    · simp at h

/-- A run whose result is no more complicated than the trees after one step and after two improves
the folded form: if neither step has made it simpler, the run has come to rest at it. -/
lemma improves_of_two_steps {e second third r : Expr} (he : e.isExact = true)
    (hdepth : e.divisionDepth ≤ depth) (hsecond : (stepWith side e).Yields (fun _ => True) second)
    (hthird : (stepWith side second).Yields (fun _ => True) third)
    (h : (runWith side e).result = .ok r) (hsecondle : r.complexity ≤ second.complexity)
    (hthirdle : r.complexity ≤ third.complexity) : Improves e.foldedForm r := by
  have hrewritten := rewrites_of_yields_stepWith hrewrites hsecond
  have hexact := hrewritten.isExact he
  rcases (reduces_of_stepWith hside hrewrites he hdepth hsecond).improves with rfl | hless
  · have hthirdimproves := (reduces_of_stepWith hside hrewrites hexact
      (hrewritten.divisionDepth_le.trans hdepth) hthird).improves
    rw [(folded_foldedForm he).foldedForm_eq] at hthirdimproves
    rcases hthirdimproves with rfl | hless
    · rw [result_runWith_eq_canonical hexact hsecond.1 hthird.1] at h
      exact Or.inl (List.mem_singleton.1 (canonical_mem (List.cons_ne_nil _ _) h))
    · exact Or.inr (hthirdle.trans_lt hless)
  · exact Or.inr (hsecondle.trans_lt hless)

/-- A run reduces a tree, also when it is broken off. -/
lemma reduces_of_runWith {e r : Expr} (he : e.isExact = true) (hdepth : e.divisionDepth ≤ depth)
    (h : (runWith side e).Yields (fun _ => True) r) : Reduces e r := by
  obtain ⟨visited, next, hvisits⟩ := exists_visits_of_yields_runWith h
  have hmem : r ∈ visited := hvisits.mem (by decide)
  -- The run starts with `e` and a tree `second` that a step leads to.
  obtain ⟨tail, rfl⟩ : ∃ tail, visited = e :: tail := by
    obtain ⟨first, tail, rfl⟩ := List.exists_cons_of_ne_nil (List.ne_nil_of_mem hmem)
    exact ⟨tail, congrArg (· :: tail) (Option.some.inj hvisits.head)⟩
  obtain ⟨second, later, hlater⟩ := List.exists_cons_of_ne_nil (List.concat_ne_nil next tail)
  have hchain := hvisits.chain
  rw [List.cons_append, hlater, List.isChain_cons_cons] at hchain
  have hreached : ∀ t ∈ second :: later, t.isExact = true ∧ t.divisionDepth ≤ depth ∧
      Reduces e t := by
    refine hchain.2.induction _ _ ?_ fun _ => ?_
    · rintro a b hab ⟨ha, hadepth, hea⟩
      have hrewritten := rewrites_of_yields_stepWith hrewrites hab
      exact ⟨hrewritten.isExact ha, hrewritten.divisionDepth_le.trans hadepth,
        hea.trans (reduces_of_stepWith hside hrewrites ha hadepth hab)⟩
    · have hrewritten := rewrites_of_yields_stepWith hrewrites hchain.1
      exact ⟨hrewritten.isExact he, hrewritten.divisionDepth_le.trans hdepth,
        reduces_of_stepWith hside hrewrites he hdepth hchain.1⟩
  have hnext : next ∈ second :: later := hlater ▸ List.mem_append_right tail List.mem_cons_self
  have htail : ∀ t ∈ tail, t ∈ second :: later :=
    fun t ht => hlater ▸ List.mem_append_left [next] ht
  refine ⟨?_, ?_, fun n hn => ?_⟩
  · rcases hvisits.ends with ⟨hrecurs, hr⟩ | ⟨hlength, -, hr⟩
    · -- At rest the result is chosen from trees that a step leads to.
      obtain ⟨before, x, after, hvisited, hx, hdrop⟩ := exists_split_of_any hrecurs
      rw [hdrop] at hr
      obtain rfl : next = x := eq_of_recurs (hreached next hnext).1 hx
      have hafter : ∀ t ∈ after, t ∈ tail := by
        intro t ht
        cases before with
        | nil => exact (List.cons.inj hvisited).2 ▸ ht
        | cons b before =>
          rw [(List.cons.inj hvisited).2]
          exact List.mem_append_right before (List.mem_cons_of_mem next ht)
      rcases List.mem_cons.1 (canonical_mem (List.cons_ne_nil next after) hr) with rfl | hr
      · exact (hreached r hnext).2.2.improves
      · exact (hreached r (htail r (hafter r hr))).2.2.improves
    · obtain ⟨third, rest, rfl⟩ : ∃ third rest, tail = second :: third :: rest := by
        match tail, hlength, hlater with
        | first :: third :: rest, _, hlater =>
          obtain rfl : first = second := (List.cons.inj hlater).1
          exact ⟨third, rest, rfl⟩
      obtain rfl : third :: (rest ++ [next]) = later := (List.cons.inj hlater).2
      exact improves_of_two_steps hside hrewrites he hdepth hchain.1
        (List.isChain_cons_cons.1 hchain.2).1 h.1
        (complexity_le_of_canonical hr (by simp)) (complexity_le_of_canonical hr (by simp))
  · rcases List.mem_cons.1 hmem with rfl | hmem
    · exact Or.inl rfl
    · exact (hreached r (htail r hmem)).2.2.improves_folded
  · obtain rfl := (hreached second List.mem_cons_self).2.2.integer n hn
    have hresult := result_runWith_eq_canonical (r := integer n) rfl hchain.1.1 (stepWith_integer n)
    rw [h.1] at hresult
    exact List.mem_singleton.1 (canonical_mem (List.cons_ne_nil _ _) hresult.symm)

end

/-! ### Simplification -/

/-- Simplification reduces trees of every division depth. -/
lemma reducesBelow_simplifyTraced (depth : ℕ) : ReducesBelow simplifyTraced depth := by
  induction depth with
  | zero => exact fun e r _ hdepth _ => absurd hdepth (Nat.not_lt_zero _)
  | succ depth ih =>
    intro e r he hdepth h
    rw [simplifyTraced_eq_runWith] at h
    exact reduces_of_runWith ih (fun _ _ => rewrites_of_yields_simplifyTraced) he
      (Nat.le_of_lt_succ hdepth) (Traced.yields_true_iff.2 h)

/-- The simplified form of an exact tree is no more complicated than the tree with its constants
folded, also when a run is broken off. -/
theorem complexity_simplify_le {e r : Expr} (he : e.isExact = true) (h : e.simplify = .ok r) :
    ∃ c, e.foldConstants = .ok c ∧ r.complexity ≤ c.complexity :=
  ⟨e.foldedForm, foldConstants_eq_foldedForm he,
    (reducesBelow_simplifyTraced _ e r he (Nat.lt_succ_self _) h).complexity_le⟩

/-- For instance a quotient whose left side is a sum that becomes a product. -/
theorem complexity_simplify_le_quotient :
    (division (product (integer 2) (var "x") []) (var "y")).complexity ≤
      (division (sum (var "x") (var "x") []) (var "y")).complexity := by
  have hsimplify : (division (parentheses (sum (var "x") (var "x") [])) (var "y")).simplify =
      .ok (division (product (integer 2) (var "x") []) (var "y")) :=
    eq_ok_of_returns rfl (by decide +kernel)
  have hfold : (division (parentheses (sum (var "x") (var "x") [])) (var "y")).foldConstants =
      .ok (division (sum (var "x") (var "x") []) (var "y")) := rfl
  obtain ⟨c, hc, hle⟩ := complexity_simplify_le rfl hsimplify
  rw [hfold] at hc
  exact (Except.ok.inj hc).symm ▸ hle

end TermAlgebra.Expr
