import Mathlib.Tactic
import TermAlgebra.Proofs.FoldedForm

/-!
# Laws of folding

What the folded form of an exact expression is, and what it depends on.

Of the terms of a sum or product folding only keeps the integer that they come to and the other
terms in order (`condensed`, `folded_eq_ofCondensed`), so that lists of terms may be replaced where
these agree (`condensed_append_congr`).  The terms of a folded node come to the same as the terms it
was folded from (`condensed_terms_folded`), and hence folding does not depend on how sums and
products are nested: `foldedForm_ofTerms_merged` for one node, `foldedForm_flatten` for all.
Nodes have the same folded form if their terms have (`SameForm.ofTerms`).
-/

namespace TermAlgebra.Expr

/-! ### What folding keeps of terms -/

/-- The integer that some terms come to and the other terms.  A product with a factor zero comes to
zero alone. -/
def condensed (op : AssocOp) (terms : List Expr) : ℤ × List Expr :=
  if op = .product ∧ op.total (terms.filterMap integer?) = 0 then (0, [])
  else (op.total (terms.filterMap integer?), terms.filter fun e => !e.isConstant)

/-- The expression of an integer and other terms, where an integer that changes nothing is left out
if there are other terms. -/
def ofCondensed (op : AssocOp) (parts : ℤ × List Expr) : Expr :=
  if parts.2 ≠ [] ∧ parts.1 = op.total [] then ofTerms op parts.2
  else ofTerms op (integer parts.1 :: parts.2)

section Condensed

variable {op : AssocOp} {terms terms' : List Expr}

/-- Terms come to the same if their integers do and the other terms are the same or a factor is
zero. -/
lemma condensed_eq_iff :
    condensed op terms = condensed op terms' ↔
      op.total (terms.filterMap integer?) = op.total (terms'.filterMap integer?) ∧
        (terms.filter (fun e => !e.isConstant) = terms'.filter (fun e => !e.isConstant) ∨
          op = .product ∧ op.total (terms.filterMap integer?) = 0) := by
  unfold condensed
  split_ifs with h h' h'
  · exact iff_of_true rfl ⟨h.2.trans h'.2.symm, Or.inr h⟩
  · simp only [Prod.mk.injEq]
    constructor
    · intro heq
      exact absurd ⟨h.1, heq.1.symm⟩ h'
    · intro heq
      exact absurd ⟨h.1, heq.1 ▸ h.2⟩ h'
  · simp only [Prod.mk.injEq]
    constructor
    · intro heq
      exact absurd ⟨h'.1, heq.1⟩ h
    · intro heq
      exact absurd ⟨h'.1, heq.1.trans h'.2⟩ h
  · rw [Prod.mk.injEq, or_iff_left h]

/-- Integers are no terms that folding keeps, and all other exact terms are. -/
lemma isConstant_eq_false_iff {e : Expr} (h : e.isExact = true) :
    e.isConstant = false ↔ e.integer? = none := by
  cases e with
  | decimal d => exact Bool.noConfusion h
  | _ => simp [isConstant, integer?]

/-- A product of terms comes to zero exactly if one of them is zero. -/
lemma total_product_eq_zero_iff :
    AssocOp.product.total (terms.filterMap integer?) = 0 ↔ integer 0 ∈ terms := by
  rw [AssocOp.total_product, List.prod_eq_zero_iff, List.mem_filterMap]
  constructor
  · rintro ⟨t, ht, hzero⟩
    exact integer?_eq_some_iff.1 hzero ▸ ht
  · exact fun h => ⟨_, h, rfl⟩

/-- Folding depends on what terms come to only. -/
lemma folded_eq_ofCondensed (hne : terms ≠ []) (h : ∀ t ∈ terms, t.isExact = true) :
    folded op terms = ofCondensed op (condensed op terms) := by
  by_cases hzero : op = .product ∧ integer 0 ∈ terms
  · obtain ⟨rfl, hmem⟩ := hzero
    rw [folded_eq_zero hmem, condensed, if_pos ⟨rfl, total_product_eq_zero_iff.2 hmem⟩]
    rfl
  · have hnot : ¬ (op = .product ∧ op.total (terms.filterMap integer?) = 0) := by
      rintro ⟨rfl, htotal⟩
      exact hzero ⟨rfl, total_product_eq_zero_iff.1 htotal⟩
    rw [not_and] at hzero
    rw [folded_eq_ofTerms hzero h, condensed, if_neg hnot, ofCondensed, foldedTerms, foldedConstant]
    cases hints : terms.filterMap integer? with
    | nil =>
      have hothers : terms.filter (fun e => !e.isConstant) = terms := by
        rw [List.filter_eq_self]
        intro t ht
        rw [List.filterMap_eq_nil_iff] at hints
        rw [(isConstant_eq_false_iff (h t ht)).2 (hints t ht)]
        rfl
      simp [hothers, hne]
    | cons n ns =>
      simp only [Option.any_some, Bool.and_eq_true, isUnit_integer_iff, Bool.not_eq_true',
        List.isEmpty_eq_false_iff, ne_eq]
      split
      · rfl
      · rfl

/-- Lists of terms may be replaced by others that come to the same. -/
lemma condensed_append_congr {others others' : List Expr}
    (h : condensed op terms = condensed op terms')
    (hothers : condensed op others = condensed op others') :
    condensed op (terms ++ others) = condensed op (terms' ++ others') := by
  rw [condensed_eq_iff] at h hothers ⊢
  obtain ⟨htotal, hsame⟩ := h
  obtain ⟨htotal', hsame'⟩ := hothers
  rw [List.filterMap_append, List.filterMap_append, List.filter_append, List.filter_append,
    AssocOp.total_append, htotal, htotal', ← AssocOp.total_append]
  refine ⟨rfl, ?_⟩
  rcases hsame with hsame | ⟨rfl, hzero⟩
  · rcases hsame' with hsame' | ⟨rfl, hzero⟩
    · exact Or.inl (by rw [hsame, hsame'])
    · refine Or.inr ⟨rfl, ?_⟩
      rw [AssocOp.total_append, ← htotal', hzero]
      simp
  · refine Or.inr ⟨rfl, ?_⟩
    rw [AssocOp.total_append, ← htotal, hzero]
    simp

/-- The same for lists that are put together of many. -/
lemma condensed_flatMap_congr {α : Type} {f g : α → List Expr} {as : List α}
    (h : ∀ a ∈ as, condensed op (f a) = condensed op (g a)) :
    condensed op (as.flatMap f) = condensed op (as.flatMap g) := by
  induction as with
  | nil => rfl
  | cons a as ih =>
    rw [List.forall_mem_cons] at h
    rw [List.flatMap_cons, List.flatMap_cons]
    exact condensed_append_congr h.1 (ih h.2)

/-- What some terms come to is what an integer and the other terms come to. -/
lemma condensed_ofCondensed {n : ℤ} {others : List Expr}
    (hothers : ∀ t ∈ others, t.isConstant = false ∧ t.isNary op = false)
    (htotal : op.total (terms.filterMap integer?) = n)
    (hsame : terms.filter (fun e => !e.isConstant) = others ∨ op = .product ∧ n = 0) :
    condensed op ((ofCondensed op (n, others)).terms op) = condensed op terms := by
  have hints : others.filterMap integer? = [] := by
    rw [List.filterMap_eq_nil_iff]
    intro t ht
    have hconstant := (hothers t ht).1
    cases t <;> first | rfl | exact Bool.noConfusion hconstant
  have hfilter : others.filter (fun e => !e.isConstant) = others := by
    rw [List.filter_eq_self]
    intro t ht
    rw [(hothers t ht).1, Bool.not_false]
  have hsame' : others = terms.filter (fun e => !e.isConstant) ∨ op = .product ∧ n = 0 :=
    hsame.imp_left Eq.symm
  rw [ofCondensed]
  split
  · next hunit =>
    rw [terms_ofTerms hunit.1 fun t ht => (hothers t ht).2, condensed_eq_iff, hints, hfilter,
      htotal, ← hunit.2]
    exact ⟨rfl, hsame'⟩
  · have hnary : ∀ t ∈ integer n :: others, t.isNary op = false :=
      List.forall_mem_cons.2 ⟨rfl, fun t ht => (hothers t ht).2⟩
    rw [terms_ofTerms (List.cons_ne_nil _ _) hnary, condensed_eq_iff,
      List.filterMap_cons_some (f := integer?) (b := n) rfl, hints, AssocOp.total_singleton,
      List.filter_cons_of_neg (by simp [isConstant]), hfilter, htotal]
    exact ⟨rfl, hsame'⟩

/-- The terms of a folded node come to the same as the terms that it was folded from. -/
lemma condensed_terms_folded (hne : terms ≠ [])
    (h : ∀ t ∈ terms, t.isExact = true ∧ t.isNary op = false) :
    condensed op ((folded op terms).terms op) = condensed op terms := by
  have hback : ∀ parts, condensed op terms = parts →
      condensed op ((ofCondensed op parts).terms op) = condensed op terms →
        condensed op ((folded op terms).terms op) = condensed op terms := by
    rintro parts rfl hparts
    rwa [folded_eq_ofCondensed hne fun t ht => (h t ht).1]
  by_cases hzero : op = .product ∧ op.total (terms.filterMap integer?) = 0
  · refine hback _ (if_pos hzero) (condensed_ofCondensed ?_ hzero.2 (Or.inr ⟨hzero.1, rfl⟩))
    exact fun t ht => absurd ht List.not_mem_nil
  · refine hback _ (if_neg hzero) (condensed_ofCondensed (fun t ht => ?_) rfl (Or.inl rfl))
    rw [List.mem_filter, Bool.not_eq_true'] at ht
    exact ⟨ht.2, (h t ht.1).2⟩

/-- A term of what is made of an integer and other terms is one of these. -/
lemma mem_terms_ofCondensed {n : ℤ} {others : List Expr}
    (h : ∀ t ∈ others, t.isNary op = false) {t : Expr}
    (ht : t ∈ (ofCondensed op (n, others)).terms op) : t = integer n ∨ t ∈ others := by
  rw [ofCondensed] at ht
  split at ht
  · next hunit =>
    rw [terms_ofTerms hunit.1 h] at ht
    exact Or.inr ht
  · rw [terms_ofTerms (List.cons_ne_nil _ _) (List.forall_mem_cons.2 ⟨rfl, h⟩)] at ht
    exact List.mem_cons.1 ht

/-- The terms of a folded node are among those that it was folded from, or integers. -/
lemma mem_terms_folded (hne : terms ≠ [])
    (h : ∀ t ∈ terms, t.isExact = true ∧ t.isNary op = false) {t : Expr}
    (ht : t ∈ (folded op terms).terms op) : (∃ n, t = integer n) ∨ t ∈ terms := by
  rw [folded_eq_ofCondensed hne fun u hu => (h u hu).1, condensed] at ht
  split at ht
  · have hnil : ∀ u ∈ ([] : List Expr), u.isNary op = false := List.forall_mem_nil _
    rcases mem_terms_ofCondensed hnil ht with hn | ht
    · exact Or.inl ⟨0, hn⟩
    · exact absurd ht List.not_mem_nil
  · have hothers : ∀ u ∈ terms.filter (fun e => !e.isConstant), u.isNary op = false :=
      fun u hu => (h u (List.mem_filter.1 hu).1).2
    rcases mem_terms_ofCondensed hothers ht with hn | ht
    · exact Or.inl ⟨_, hn⟩
    · exact Or.inr (List.mem_filter.1 ht).1

/-- An integer may stand anywhere among the terms. -/
lemma condensed_append_integer (terms others : List Expr) (n : ℤ) :
    condensed op (terms ++ integer n :: others) =
      condensed op (integer n :: (terms ++ others)) := by
  have hints : ((terms ++ integer n :: others).filterMap integer?).Perm
      ((integer n :: (terms ++ others)).filterMap integer?) :=
    List.perm_middle.filterMap integer?
  rw [condensed_eq_iff]
  refine ⟨op.total_perm hints, Or.inl ?_⟩
  rw [List.filter_append, List.filter_cons_of_neg (by simp [isConstant]),
    List.filter_cons_of_neg (by simp [isConstant]), List.filter_append]

/-- Two integers come to their sum or product. -/
lemma condensed_integer_integer (n m : ℤ) (terms : List Expr) :
    condensed op (integer n :: integer m :: terms) =
      condensed op (integer (op.total [n, m]) :: terms) := by
  rw [condensed_eq_iff]
  constructor
  · cases op <;> simp [integer?, add_assoc, mul_assoc]
  · exact Or.inl rfl

/-- An integer that changes nothing may be left out. -/
lemma condensed_unit (terms : List Expr) :
    condensed op (integer (op.total []) :: terms) = condensed op terms := by
  rw [condensed_eq_iff]
  constructor
  · cases op <;> simp [integer?]
  · exact Or.inl rfl

end Condensed

/-- Folding the terms of a folded expression gives it back. -/
lemma Folded.folded_terms {e : Expr} (h : Folded e) (op : AssocOp) :
    folded op (e.terms op) = e := by
  rcases eq_nary_or_not_isNary op e with ⟨a, b, rest, rfl⟩ | hnot
  · have hterms := h.terms op
    rw [terms_nary] at hterms ⊢
    have hsame : List.Forall₂ (fun t t' => foldConstants t = .ok t') (a :: b :: rest)
        (a :: b :: rest) := List.forall₂_same.2 fun t ht => (hterms t ht).1.foldConstants_eq
    have hfold := foldConstants_nary_eq_ok_iff.2
      ⟨_, hsame, foldTerms_eq op fun t ht => (hterms t ht).1.isDecimalFree⟩
    rw [merged_eq_self fun t ht => (hterms t ht).2, h.foldConstants_eq, Except.ok.injEq] at hfold
    exact hfold.symm
  · have hsingle : ∀ t ∈ [e], t.isExact = true := List.forall_mem_singleton.2 h.isExact
    rw [terms_of_not_isNary hnot, folded_eq_ofCondensed (List.cons_ne_nil e []) hsingle]
    cases h with
    | integer n =>
      have htotal := op.total_singleton n
      unfold condensed
      split
      · next hzero => exact congrArg Expr.integer (hzero.2.symm.trans htotal)
      · exact congrArg Expr.integer htotal
    | _ => cases op <;> rfl

/-! ### The folded form -/

/-- The expression with its constants folded, or the expression itself where that fails. -/
def foldedForm (e : Expr) : Expr :=
  match foldConstants e with
  | .ok r => r
  | .error _ => e

/-- The folded form is the result of folding. -/
lemma foldedForm_of_foldConstants {e r : Expr} (h : foldConstants e = .ok r) :
    e.foldedForm = r := by
  rw [foldedForm, h]

/-- A folded expression is its own folded form. -/
lemma Folded.foldedForm_eq {e : Expr} (h : Folded e) : e.foldedForm = e :=
  foldedForm_of_foldConstants h.foldConstants_eq

/-- Parentheses do not matter for the folded form. -/
lemma foldedForm_parentheses {e : Expr} (h : e.isExact = true) :
    (parentheses e).foldedForm = e.foldedForm := by
  obtain ⟨r, hr, -⟩ := exists_foldConstants (isDecimalFree_of_isExact h)
  have hparentheses : foldConstants (parentheses e) = .ok r := hr
  rw [foldedForm_of_foldConstants hr, foldedForm_of_foldConstants hparentheses]

/-- Folding an exact expression gives the folded form. -/
lemma foldConstants_eq_foldedForm {e : Expr} (h : e.isExact = true) :
    foldConstants e = .ok e.foldedForm := by
  obtain ⟨r, hr, -⟩ := exists_foldConstants (isDecimalFree_of_isExact h)
  rw [hr, foldedForm_of_foldConstants hr]

/-- The folded form of an exact expression is folded. -/
lemma folded_foldedForm {e : Expr} (h : e.isExact = true) : Folded e.foldedForm :=
  folded_of_foldConstants h (foldConstants_eq_foldedForm h)

/-- The folded forms of exact expressions are folded. -/
lemma folded_map_foldedForm {es : List Expr} (h : ∀ e ∈ es, e.isExact = true) :
    ∀ e ∈ es.map foldedForm, Folded e := by
  intro e' he'
  obtain ⟨e, he, rfl⟩ := List.mem_map.1 he'
  exact folded_foldedForm (h e he)

/-- The folded form of a negation is folded from minus one and its operand. -/
lemma foldedForm_negation {e : Expr} (h : e.isExact = true) :
    (negation e).foldedForm = folded .product (merged .product [integer (-1), e.foldedForm]) := by
  refine foldedForm_of_foldConstants (foldConstants_negation_eq_ok_iff.2
    ⟨_, foldConstants_eq_foldedForm h, foldTerms_eq .product ?_⟩)
  rw [List.forall_mem_cons, List.forall_mem_singleton]
  exact ⟨rfl, (folded_foldedForm h).isDecimalFree⟩

/-- The folded form of a node is folded from those of its terms. -/
lemma foldedForm_ofTerms (op : AssocOp) {es : List Expr} (hne : es ≠ [])
    (h : ∀ e ∈ es, e.isExact = true) :
    (ofTerms op es).foldedForm = folded op (merged op (es.map foldedForm)) := by
  match es, hne with
  | [e], _ =>
    rw [ofTerms, List.map_singleton, merged, List.flatMap_singleton,
      (folded_foldedForm (h e List.mem_cons_self)).folded_terms]
  | a :: b :: rest, _ =>
    refine foldedForm_of_foldConstants (foldConstants_nary_eq_ok_iff.2
      ⟨(a :: b :: rest).map foldedForm, ?_, foldTerms_eq op fun t ht => ?_⟩)
    · rw [List.forall₂_map_right_iff, List.forall₂_same]
      exact fun t ht => foldConstants_eq_foldedForm (h t ht)
    · exact (folded_map_foldedForm h t ht).isDecimalFree

/-- A node is folded to something that counts for no more than its folded terms. -/
lemma weight_foldedForm_ofTerms_le (op : AssocOp) {es : List Expr} (hne : es ≠ [])
    (h : ∀ e ∈ es, e.isExact = true) :
    (ofTerms op es).foldedForm.weight op ≤ ((es.map foldedForm).map (weight op)).sum := by
  have hfolded := folded_map_foldedForm h
  rw [foldedForm_ofTerms op hne h]
  exact weight_foldTerms_le (by simpa using hne) (fun e he => (hfolded e he).isExact)
    (foldTerms_eq op fun e he => (hfolded e he).isDecimalFree)

/-- A negation has the folded form of the product with minus one. -/
lemma foldedForm_negation_eq_product {e : Expr} (h : e.isExact = true) :
    (negation e).foldedForm = (product (integer (-1)) e []).foldedForm := by
  have hterms : ∀ t ∈ [integer (-1), e], t.isExact = true :=
    List.forall_mem_cons.2 ⟨rfl, List.forall_mem_singleton.2 h⟩
  rw [foldedForm_negation h]
  exact (foldedForm_ofTerms .product (List.cons_ne_nil _ _) hterms).symm

/-- The folded form of a division is the reduced quotient of those of its sides. -/
lemma foldedForm_division {l r : Expr} (hl : l.isExact = true) (hr : r.isExact = true) :
    (division l r).foldedForm = (integerQuotient? l.foldedForm r.foldedForm).getD
      (division l.foldedForm r.foldedForm) :=
  foldedForm_of_foldConstants (foldConstants_division_eq_ok_iff.2
    ⟨_, _, foldConstants_eq_foldedForm hl, foldConstants_eq_foldedForm hr,
      reduceQuotient_eq (folded_foldedForm hl).isDecimalFree (folded_foldedForm hr).isDecimalFree⟩)

/-- The folded form of a reduced quotient is the reduced quotient of the folded sides. -/
lemma foldedForm_quotient {l r : Expr} (hl : l.isExact = true) (hr : r.isExact = true) :
    ((integerQuotient? l r).getD (division l r)).foldedForm =
      (integerQuotient? l.foldedForm r.foldedForm).getD
        (division l.foldedForm r.foldedForm) := by
  cases hquotient : integerQuotient? l r with
  | none => exact foldedForm_division hl hr
  | some c =>
    obtain ⟨a, b, rfl, rfl, -, -, rfl⟩ := integerQuotient?_eq_some_iff.1 hquotient
    rw [(Folded.integer a).foldedForm_eq, (Folded.integer b).foldedForm_eq, hquotient]
    exact (Folded.integer (a / b)).foldedForm_eq

/-- A quotient is reduced to an integer, or remains a division. -/
lemma quotient_kind (l r : Expr) :
    ((integerQuotient? l r).getD (division l r)).isDivision = true ∨
      ((integerQuotient? l r).getD (division l r)).isConstant = true := by
  cases hquotient : integerQuotient? l r with
  | none => exact Or.inl rfl
  | some c =>
    obtain ⟨a, b, -, -, -, -, rfl⟩ := integerQuotient?_eq_some_iff.1 hquotient
    exact Or.inr rfl

/-- Reducing a quotient does not make it more complicated. -/
lemma complexity_quotient_le (l r : Expr) :
    ((integerQuotient? l r).getD (division l r)).complexity ≤
      l.complexity + r.complexity + 1 := by
  cases hquotient : integerQuotient? l r with
  | none => exact le_rfl
  | some c =>
    obtain ⟨a, b, -, -, -, -, rfl⟩ := integerQuotient?_eq_some_iff.1 hquotient
    exact Nat.le_add_left 1 _

/-! ### Nesting -/

/-- The folded forms of the terms of an expression come to the same as the terms of its folded
form. -/
lemma condensed_foldedForm_terms (op : AssocOp) {e : Expr} (h : e.isExact = true) :
    condensed op (merged op ((e.terms op).map foldedForm)) =
      condensed op (e.foldedForm.terms op) := by
  rcases eq_nary_or_not_isNary op e with ⟨a, b, rest, rfl⟩ | hnot
  · have hterms := hereditary_isExact.nary op a b rest |>.1 h
    have hfolded : ∀ t ∈ merged op ((a :: b :: rest).map foldedForm),
        Folded t ∧ t.isNary op = false := folded_merged (folded_map_foldedForm hterms)
    have hne : merged op ((a :: b :: rest).map foldedForm) ≠ [] :=
      merged_ne_nil op (List.cons_ne_nil _ _)
    have hform := foldedForm_ofTerms op (List.cons_ne_nil a (b :: rest)) hterms
    rw [ofTerms] at hform
    rw [terms_nary, hform, condensed_terms_folded hne fun t ht =>
      ⟨(hfolded t ht).1.isExact, (hfolded t ht).2⟩]
  · rw [terms_of_not_isNary hnot, List.map_singleton, merged, List.flatMap_singleton]

/-- Nodes have the same folded form if the folded forms of their terms come to the same. -/
lemma foldedForm_ofTerms_congr (op : AssocOp) {es es' : List Expr} (hne : es ≠ []) (hne' : es' ≠ [])
    (h : ∀ e ∈ es, e.isExact = true) (h' : ∀ e ∈ es', e.isExact = true)
    (hsame : condensed op (merged op (es.map foldedForm)) =
      condensed op (merged op (es'.map foldedForm))) :
    (ofTerms op es).foldedForm = (ofTerms op es').foldedForm := by
  have hform : ∀ {ts : List Expr}, ts ≠ [] → (∀ t ∈ ts, t.isExact = true) →
      (ofTerms op ts).foldedForm =
        ofCondensed op (condensed op (merged op (ts.map foldedForm))) := by
    intro ts hts hexact
    have hne : merged op (ts.map foldedForm) ≠ [] := merged_ne_nil op (by simpa using hts)
    rw [foldedForm_ofTerms op hts hexact, folded_eq_ofCondensed hne fun t ht =>
      (folded_merged (folded_map_foldedForm hexact) t ht).1.isExact]
  rw [hform hne h, hform hne' h', hsame]

/-- Merging nested terms does not change the folded form of a node. -/
theorem foldedForm_ofTerms_merged (op : AssocOp) {es : List Expr} (hne : es ≠ [])
    (h : ∀ e ∈ es, e.isExact = true) :
    (ofTerms op (merged op es)).foldedForm = (ofTerms op es).foldedForm := by
  refine foldedForm_ofTerms_congr op (merged_ne_nil op hne) hne
    ((hereditary_isExact.merged op es).2 h) h ?_
  rw [merged, merged, merged, List.map_flatMap, List.flatMap_assoc, List.flatMap_map]
  exact condensed_flatMap_congr fun e he => condensed_foldedForm_terms op (h e he)

/-- Joined operands have the folded form of the node of both. -/
lemma foldedForm_join (op : AssocOp) {a b : Expr} (ha : a.isExact = true) (hb : b.isExact = true) :
    (join op a b).foldedForm = (nary op a b []).foldedForm := by
  have hboth : ∀ e ∈ [a, b], e.isExact = true :=
    List.forall_mem_cons.2 ⟨ha, List.forall_mem_singleton.2 hb⟩
  rw [join_eq_ofTerms_merged, foldedForm_ofTerms_merged op (List.cons_ne_nil _ _) hboth, ofTerms]

/-- Neither does taking apart a node among the terms. -/
lemma foldedForm_ofTerms_nested (op : AssocOp) (before after : List Expr) {es : List Expr}
    (hne : es ≠ []) (h : ∀ e ∈ before ++ (es ++ after), e.isExact = true) :
    (ofTerms op (before ++ ofTerms op es :: after)).foldedForm =
      (ofTerms op (before ++ (es ++ after))).foldedForm := by
  have hparts := h
  simp only [List.forall_mem_append] at hparts
  obtain ⟨hbefore, hes, hafter⟩ := hparts
  have hnode : (ofTerms op es).isExact = true := (hereditary_isExact.ofTerms op hne).2 hes
  have hterms : condensed op ((ofTerms op es).foldedForm.terms op) =
      condensed op (merged op (es.map foldedForm)) := by
    match es, hne with
    | [e], _ => rw [ofTerms, List.map_singleton, merged, List.flatMap_singleton]
    | a :: b :: rest, _ =>
      rw [← condensed_foldedForm_terms op hnode, ofTerms, terms_nary]
  refine foldedForm_ofTerms_congr op (by simp) (by simp [hne]) ?_ h ?_
  · rw [List.forall_mem_append, List.forall_mem_cons]
    exact ⟨hbefore, hnode, hafter⟩
  · simp only [List.map_append, List.map_cons, merged, List.flatMap_append, List.flatMap_cons]
    exact condensed_append_congr rfl (condensed_append_congr hterms rfl)

/-- Neither does multiplying two integers in front. -/
lemma foldedForm_ofTerms_integers (op : AssocOp) (n m : ℤ) {es : List Expr}
    (h : ∀ e ∈ es, e.isExact = true) :
    (ofTerms op (integer n :: integer m :: es)).foldedForm =
      (ofTerms op (integer (op.total [n, m]) :: es)).foldedForm := by
  have hinteger : ∀ k, (integer k).foldedForm = integer k := fun k =>
    (Folded.integer k).foldedForm_eq
  refine foldedForm_ofTerms_congr op (List.cons_ne_nil _ _) (List.cons_ne_nil _ _)
    (List.forall_mem_cons.2 ⟨rfl, List.forall_mem_cons.2 ⟨rfl, h⟩⟩)
    (List.forall_mem_cons.2 ⟨rfl, h⟩) ?_
  simp only [List.map_cons, merged_cons, hinteger]
  exact condensed_integer_integer n m _

/-- Flattening does not change the folded form. -/
theorem foldedForm_flatten {e : Expr} (h : e.isExact = true) :
    e.flatten.foldedForm = e.foldedForm := by
  induction e using Expr.induction with
  | negation e ih =>
    have he := (hereditary_isExact.negation e).1 h
    rw [flatten, foldedForm_negation ((rewrites_flatten e).isExact he), foldedForm_negation he,
      ih he]
  | nary op a b rest ih =>
    have hterms := (hereditary_isExact.nary op a b rest).1 h
    have hflat : ∀ t ∈ (a :: b :: rest).map flatten, t.isExact = true := by
      intro t' ht'
      obtain ⟨t, ht, rfl⟩ := List.mem_map.1 ht'
      exact (rewrites_flatten t).isExact (hterms t ht)
    have hforms : ((a :: b :: rest).map flatten).map foldedForm =
        (a :: b :: rest).map foldedForm := by
      rw [List.map_map]
      exact List.map_congr_left fun t ht => ih t ht (hterms t ht)
    have hne : (a :: b :: rest).map flatten ≠ [] := List.cons_ne_nil _ _
    calc (nary op a b rest).flatten.foldedForm
        = (ofTerms op (merged op ((a :: b :: rest).map flatten))).foldedForm := by
          rw [flatten, flattenAll_eq_map, ← List.map_cons, ← List.map_cons, gather_of_isExact]
          exact (hereditary_isExact.merged op _).2 hflat
      _ = (ofTerms op ((a :: b :: rest).map flatten)).foldedForm :=
          foldedForm_ofTerms_merged op hne hflat
      _ = folded op (merged op ((a :: b :: rest).map foldedForm)) := by
          rw [foldedForm_ofTerms op hne hflat, hforms]
      _ = (nary op a b rest).foldedForm :=
          (foldedForm_ofTerms op (List.cons_ne_nil a (b :: rest)) hterms).symm
  | division l r hl hr =>
    obtain ⟨hlexact, hrexact⟩ := isExact_division_iff.1 h
    rw [flatten, foldedForm_division ((rewrites_flatten l).isExact hlexact)
      ((rewrites_flatten r).isExact hrexact), foldedForm_division hlexact hrexact, hl hlexact,
      hr hrexact]
  | parentheses e ih =>
    have he := isExact_parentheses_iff.1 h
    rw [flatten, foldedForm_parentheses he, ih he]
  | _ => rfl

/-- Folding the constants of an exact expression has a result that stays as it is when its constants
are folded again or it is flattened, and the expression flattened first has the same result. -/
theorem foldConstants_stable {e : Expr} (h : e.isExact = true) :
    ∃ r, foldConstants e = .ok r ∧ foldConstants r = .ok r ∧ foldConstants e.flatten = .ok r ∧
      r.flatten = r := by
  have hfolded := folded_foldedForm h
  have hflat : foldConstants e.flatten = .ok e.foldedForm := by
    rw [foldConstants_eq_foldedForm ((rewrites_flatten e).isExact h), foldedForm_flatten h]
  exact ⟨e.foldedForm, foldConstants_eq_foldedForm h, hfolded.foldConstants_eq, hflat,
    hfolded.flatten_eq⟩

/-- For instance a product with a sign in it, a quotient that can be reduced and a sum in
parentheses. -/
theorem foldConstants_stable_nested :
    (sum (product (integer 2) (negation (sum (integer 0) (var "x") [])) [])
      (division (integer 6) (integer 3)) [parentheses (sum (var "y") (integer 1) [])]).isExact
        = true ∧
      foldConstants (sum (integer 3) (product (integer (-2)) (var "x") []) [var "y"]) =
        .ok (sum (integer 3) (product (integer (-2)) (var "x") []) [var "y"]) ∧
      foldConstants (sum (product (integer 2) (negation (sum (integer 0) (var "x") [])) [])
        (division (integer 6) (integer 3)) [parentheses (sum (var "y") (integer 1) [])]).flatten =
        .ok (sum (integer 3) (product (integer (-2)) (var "x") []) [var "y"]) := by
  obtain ⟨r, hr, hagain, hflat, -⟩ := foldConstants_stable (e := sum (product (integer 2)
    (negation (sum (integer 0) (var "x") [])) []) (division (integer 6) (integer 3))
      [parentheses (sum (var "y") (integer 1) [])]) rfl
  obtain rfl : r = sum (integer 3) (product (integer (-2)) (var "x") []) [var "y"] :=
    Except.ok.inj (hr.symm.trans (eq_ok_of_returns rfl (by decide +kernel)))
  exact ⟨rfl, hagain, hflat⟩

/-! ### Expressions with the same folded form -/

/-- Whether two exact expressions have the same folded form. -/
structure SameForm (e e' : Expr) : Prop where
  left : e.isExact = true
  right : e'.isExact = true
  foldedForm : e.foldedForm = e'.foldedForm

namespace SameForm

variable {e e' : Expr}

/-- Folding the constants of both gives the same. -/
lemma foldConstants_eq (h : SameForm e e') : foldConstants e = foldConstants e' := by
  rw [foldConstants_eq_foldedForm h.left, foldConstants_eq_foldedForm h.right, h.foldedForm]

/-- Nodes have the same folded form if their terms have. -/
lemma ofTerms (op : AssocOp) {es es' : List Expr} (hne : es ≠ [])
    (h : List.Forall₂ SameForm es es') : SameForm (ofTerms op es) (ofTerms op es') := by
  have hne' : es' ≠ [] := ne_nil_of_forall₂ h hne
  have hleft := forall_mem_left_of_forall₂ h fun _ _ hee' => hee'.left
  have hright := forall_mem_right_of_forall₂ h fun _ _ hee' => hee'.right
  have hQ := hereditary_isExact
  refine ⟨(hQ.ofTerms op hne).2 hleft, (hQ.ofTerms op hne').2 hright, ?_⟩
  rw [foldedForm_ofTerms op hne hleft, foldedForm_ofTerms op hne' hright,
    map_eq_of_forall₂ (f := Expr.foldedForm) SameForm.foldedForm h]

/-- So do joined operands. -/
lemma join (op : AssocOp) {a : Expr} (ha : a.isExact = true) (h : SameForm e e') :
    SameForm (join op a e) (join op a e') := by
  have hpair : List.Forall₂ SameForm [a, e] [a, e'] := .cons ⟨ha, ha, rfl⟩ (.cons h .nil)
  refine ⟨(hereditary_isExact.join op a e).2 ⟨ha, h.left⟩,
    (hereditary_isExact.join op a e').2 ⟨ha, h.right⟩, ?_⟩
  rw [foldedForm_join op ha h.left, foldedForm_join op ha h.right]
  exact (SameForm.ofTerms op (List.cons_ne_nil _ _) hpair).foldedForm

end SameForm

end TermAlgebra.Expr
