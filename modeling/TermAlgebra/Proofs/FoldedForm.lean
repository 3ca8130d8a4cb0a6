import Mathlib.Tactic
import TermAlgebra.Proofs.Passes

/-!
# Folded expressions

The expressions that folding constants and flattening leave as they are.

A folded expression (`Folded`) is an integer, a variable, a node whose terms are folded and tidy, or
a quotient of folded sides that does not reduce.  Terms are `Tidy` if only the first one may be a
constant, and this one neither changes nothing nor makes a product zero.  Folding an exact
expression succeeds with a folded one (`exists_foldConstants`, `folded_of_foldConstants`), which
comes out of another folding and of flattening unchanged (`Folded.foldConstants_eq`,
`Folded.flatten_eq`).

Folding terms never makes them more complicated than they are side by side
(`weight_foldTerms_le`).
-/

namespace TermAlgebra.Expr

/-! ### Tidy terms -/

/-- Whether no term but the first one is a constant, and the first one is no integer that could be
left out or that makes a product zero. -/
def Tidy (op : AssocOp) : List Expr → Prop
  | [] => True
  | t :: ts => (∀ n, t = integer n → n ≠ op.total [] ∧ (op = .product → n ≠ 0)) ∧
      ∀ u ∈ ts, u.isConstant = false

/-- Folded expressions: those that folding constants leaves as they are. -/
inductive Folded : Expr → Prop
  | integer (n : ℤ) : Folded (integer n)
  | var (s : String) : Folded (var s)
  | nary (op : AssocOp) {a b : Expr} {rest : List Expr} : (∀ t ∈ a :: b :: rest, Folded t) →
      (∀ t ∈ a :: b :: rest, t.isNary op = false) → Tidy op (a :: b :: rest) →
      Folded (nary op a b rest)
  | division {l r : Expr} : Folded l → Folded r → integerQuotient? l r = none →
      Folded (division l r)

/-- Folded expressions are exact. -/
lemma Folded.isExact {e : Expr} (h : Folded e) : e.isExact = true := by
  induction h with
  | integer n => rfl
  | var s => rfl
  | nary op _ _ _ ih =>
    rw [hereditary_isExact.nary]
    exact ih
  | division _ _ _ hl hr => exact isExact_division_iff.2 ⟨hl, hr⟩

/-- Folded expressions have no decimals. -/
lemma Folded.isDecimalFree {e : Expr} (h : Folded e) : e.isDecimalFree = true :=
  isDecimalFree_of_isExact h.isExact

/-- The constants among folded expressions are integers. -/
lemma Folded.eq_integer_of_isConstant {e : Expr} (h : Folded e) (hconstant : e.isConstant = true) :
    ∃ n, e = Expr.integer n := by
  cases h with
  | integer n => exact ⟨n, rfl⟩
  | _ => exact Bool.noConfusion hconstant

/-- The terms of a folded expression are folded and no nodes of the operation. -/
lemma Folded.terms {e : Expr} (h : Folded e) (op : AssocOp) :
    ∀ t ∈ e.terms op, Folded t ∧ t.isNary op = false := by
  intro t ht
  rcases eq_nary_or_not_isNary op e with ⟨a, b, rest, rfl⟩ | hnot
  · obtain _ | _ | ⟨_, hfolded, hnary, _⟩ | _ := h
    rw [terms_nary] at ht
    exact ⟨hfolded t ht, hnary t ht⟩
  · rw [terms_of_not_isNary hnot, List.mem_singleton] at ht
    exact ht ▸ ⟨h, hnot⟩

/-- The terms of folded operands are folded and no nodes of the operation. -/
lemma folded_merged {op : AssocOp} {es : List Expr} (h : ∀ e ∈ es, Folded e) :
    ∀ t ∈ merged op es, Folded t ∧ t.isNary op = false := by
  intro t ht
  obtain ⟨e, he, ht⟩ := mem_merged.1 ht
  exact (h e he).terms op t ht

/-! ### The terms that folding leaves -/

/-- Folding leaves the terms that are no constants, and in front of them the sum or product of the
integers if there are any and it cannot be left out. -/
lemma foldedTerms_cases (op : AssocOp) (terms : List Expr) :
    foldedTerms op (foldedConstant op terms) terms = terms.filter (fun e => !e.isConstant) ∨
      foldedTerms op (foldedConstant op terms) terms =
          integer (op.total (terms.filterMap integer?)) :: terms.filter (fun e => !e.isConstant) ∧
        terms.filterMap integer? ≠ [] ∧
        (terms.filter (fun e => !e.isConstant) ≠ [] →
          op.total (terms.filterMap integer?) ≠ op.total []) := by
  unfold foldedTerms foldedConstant
  cases hints : terms.filterMap integer? with
  | nil => simp
  | cons n ns =>
    simp only [Option.any_some, Bool.and_eq_true, isUnit_integer_iff]
    split
    · exact Or.inl rfl
    · next hkept =>
      refine Or.inr ⟨rfl, List.cons_ne_nil n ns, fun hothers hunit => hkept ⟨?_, hunit⟩⟩
      rwa [Bool.not_eq_true', List.isEmpty_eq_false_iff]

/-- The terms that folding leaves are tidy, unless a product is zero or a single one is left. -/
lemma tidy_foldedTerms {op : AssocOp} {terms : List Expr}
    (hzero : op = .product → integer 0 ∉ terms)
    (htwo : 2 ≤ (foldedTerms op (foldedConstant op terms) terms).length) :
    Tidy op (foldedTerms op (foldedConstant op terms) terms) := by
  have hothers : ∀ u ∈ terms.filter (fun e => !e.isConstant), u.isConstant = false := by
    intro u hu
    simpa using (List.mem_filter.1 hu).2
  rcases foldedTerms_cases op terms with h | ⟨h, hints, hunit⟩
  · rw [h]
    cases hlist : terms.filter (fun e => !e.isConstant) with
    | nil => trivial
    | cons t ts =>
      rw [hlist] at hothers
      refine ⟨?_, fun u hu => hothers u (List.mem_cons_of_mem t hu)⟩
      rintro n rfl
      exact Bool.noConfusion (hothers _ List.mem_cons_self)
  · rw [h, List.length_cons] at htwo
    rw [h]
    refine ⟨?_, hothers⟩
    intro n hn
    obtain rfl := Expr.integer.inj hn
    refine ⟨hunit (List.length_pos_iff.1 (by omega)), ?_⟩
    rintro rfl
    rw [AssocOp.total_product, Ne, List.prod_eq_zero_iff]
    intro hmem
    obtain ⟨t, ht, hvalue⟩ := List.mem_filterMap.1 hmem
    exact hzero rfl (integer?_eq_some_iff.1 hvalue ▸ ht)

/-- Tidy terms are what folding leaves of them. -/
lemma foldedTerms_of_tidy {op : AssocOp} {a b : Expr} {rest : List Expr}
    (h : Tidy op (a :: b :: rest)) (hfree : ∀ t ∈ a :: b :: rest, t.isDecimalFree = true) :
    foldedTerms op (foldedConstant op (a :: b :: rest)) (a :: b :: rest) = a :: b :: rest := by
  obtain ⟨hhead, htail⟩ := h
  have hints : (b :: rest).filterMap integer? = [] := by
    rw [List.filterMap_eq_nil_iff]
    intro t ht
    have hconstant := htail t ht
    cases t <;> first | rfl | exact Bool.noConfusion hconstant
  have hothers : (b :: rest).filter (fun e => !e.isConstant) = b :: rest := by
    rw [List.filter_eq_self]
    intro t ht
    rw [htail t ht, Bool.not_false]
  cases a with
  | integer n =>
    have hfilter : (integer n :: b :: rest).filter (fun e => !e.isConstant) = b :: rest := by
      rw [List.filter_cons_of_neg (by simp [isConstant]), hothers]
    have hconstant : foldedConstant op (integer n :: b :: rest) = some (.integer n) := by
      rw [foldedConstant, List.filterMap_cons_some (f := integer?) (b := n) rfl, hints]
      exact congrArg (fun k => some (Number.integer k)) (op.total_singleton n)
    have hunit : op.isUnit (.integer n) = false := by
      rw [Bool.eq_false_iff, Ne, isUnit_integer_iff]
      exact (hhead n rfl).1
    rw [foldedTerms, hfilter, hconstant, Option.any_some, hunit, Bool.and_false]
    rfl
  | decimal d => simp [isDecimalFree, consistsOf] at hfree
  | _ =>
    rw [foldedTerms, List.filter_cons_of_pos (by simp [isConstant]), hothers, foldedConstant,
      List.filterMap_cons_none rfl, hints]
    rfl

/-! ### Folding gives folded expressions -/

/-- Without a zero in a product, folding gathers the terms that are left. -/
lemma folded_eq_ofTerms {op : AssocOp} {terms : List Expr}
    (hzero : op = .product → integer 0 ∉ terms) (h : ∀ t ∈ terms, t.isExact = true) :
    folded op terms = ofTerms op (foldedTerms op (foldedConstant op terms) terms) := by
  have hnot : (op = .product && terms.any isZeroConstant) = false := by
    rw [Bool.and_eq_false_iff, decide_eq_false_iff_not]
    by_cases hop : op = .product
    · right
      rw [List.any_eq_false]
      intro t ht hconstant
      rw [isZeroConstant_iff (isDecimalFree_of_isExact (h t ht))] at hconstant
      exact hzero hop (hconstant ▸ ht)
    · exact Or.inl hop
  unfold folded
  rw [hnot, if_neg Bool.false_ne_true]
  refine gather_eq_ofTerms op fun t ht => ?_
  rcases mem_foldedTerms ht with ⟨n, -, rfl⟩ | ⟨ht, -⟩
  · cases n <;> rfl
  · exact isEmpty_of_isExact (h t ht)

/-- A product with a zero is folded to zero. -/
lemma folded_eq_zero {terms : List Expr} (h : integer 0 ∈ terms) :
    folded .product terms = integer 0 := by
  unfold folded
  rw [if_pos]
  rw [Bool.and_eq_true, decide_eq_true_eq, List.any_eq_true]
  exact ⟨rfl, integer 0, h, rfl⟩

/-- Folding folded terms gives a folded expression. -/
lemma folded_folded {op : AssocOp} {terms : List Expr} (hne : terms ≠ [])
    (h : ∀ t ∈ terms, Folded t ∧ t.isNary op = false) : Folded (folded op terms) := by
  by_cases hzero : op = .product ∧ integer 0 ∈ terms
  · obtain ⟨rfl, hmem⟩ := hzero
    rw [folded_eq_zero hmem]
    exact .integer 0
  · rw [not_and] at hzero
    have hleft : ∀ t ∈ foldedTerms op (foldedConstant op terms) terms,
        Folded t ∧ t.isNary op = false := by
      intro t ht
      rcases foldedTerms_cases op terms with hcases | ⟨hcases, -⟩
      · rw [hcases] at ht
        exact h t (List.mem_filter.1 ht).1
      · rw [hcases] at ht
        rcases List.mem_cons.1 ht with rfl | ht
        · exact ⟨.integer _, rfl⟩
        · exact h t (List.mem_filter.1 ht).1
    have htidy := tidy_foldedTerms hzero
    have hleftne := foldedTerms_foldedConstant_ne_nil op hne
      fun t ht => (h t ht).1.isDecimalFree
    rw [folded_eq_ofTerms hzero fun t ht => (h t ht).1.isExact]
    match foldedTerms op (foldedConstant op terms) terms, hleftne, hleft, htidy with
    | [t], _, hleft, _ => exact (hleft t List.mem_cons_self).1
    | a :: b :: rest, _, hleft, htidy =>
      exact .nary op (fun t ht => (hleft t ht).1) (fun t ht => (hleft t ht).2)
        (htidy (by simp))

/-- Folding folded operands gives a folded expression. -/
lemma folded_of_foldTerms {op : AssocOp} {es : List Expr} (hne : es ≠ [])
    (h : ∀ e ∈ es, Folded e) {r : Expr} (hr : foldTerms op es = .ok r) : Folded r := by
  rw [foldTerms_eq op fun e he => (h e he).isDecimalFree, Except.ok.injEq] at hr
  rw [← hr]
  exact folded_folded (merged_ne_nil op hne) (folded_merged h)

/-- Reducing a quotient of folded sides gives a folded expression. -/
lemma folded_of_reduceQuotient {l r q : Expr} (hl : Folded l) (hr : Folded r)
    (hq : reduceQuotient l r = .ok q) : Folded q := by
  rw [reduceQuotient_eq hl.isDecimalFree hr.isDecimalFree, Except.ok.injEq] at hq
  rw [← hq]
  cases hquotient : integerQuotient? l r with
  | none => exact .division hl hr hquotient
  | some c =>
    obtain ⟨a, b, -, -, -, -, rfl⟩ := integerQuotient?_eq_some_iff.1 hquotient
    exact .integer _

/-- Folding the constants of an exact expression gives a folded one. -/
theorem folded_of_foldConstants {e r : Expr} (he : e.isExact = true)
    (h : foldConstants e = .ok r) : Folded r := by
  induction e using Expr.induction generalizing r with
  | empty => exact Bool.noConfusion he
  | decimal d => exact Bool.noConfusion he
  | integer n =>
    obtain rfl := Except.ok.inj h
    exact .integer n
  | var s =>
    obtain rfl := Except.ok.inj h
    exact .var s
  | negation e ih =>
    obtain ⟨e', he', hr⟩ := foldConstants_negation_eq_ok_iff.1 h
    refine folded_of_foldTerms (List.cons_ne_nil _ _) ?_ hr
    rw [List.forall_mem_cons, List.forall_mem_singleton]
    exact ⟨.integer (-1), ih ((hereditary_isExact.negation e).1 he) he'⟩
  | nary op a b rest ih =>
    rw [hereditary_isExact.nary] at he
    obtain ⟨es, hes, hr⟩ := foldConstants_nary_eq_ok_iff.1 h
    have hne : es ≠ [] := ne_nil_of_forall₂ hes (List.cons_ne_nil _ _)
    refine folded_of_foldTerms hne (fun t' ht' => ?_) hr
    obtain ⟨t, ht, htt'⟩ := exists_mem_of_forall₂ hes.flip ht'
    exact ih t ht (he t ht) htt'
  | division l r hl hr =>
    rw [isExact_division_iff] at he
    obtain ⟨l', r', hl', hr', hq⟩ := foldConstants_division_eq_ok_iff.1 h
    exact folded_of_reduceQuotient (hl he.1 hl') (hr he.2 hr') hq
  | parentheses e ih => exact ih (isExact_parentheses_iff.1 he) h

/-- Folding the constants of an expression without decimals succeeds. -/
theorem exists_foldConstants {e : Expr} (he : e.isDecimalFree = true) :
    ∃ r, foldConstants e = .ok r ∧ r.isDecimalFree = true := by
  have hfold : ∀ op es, es ≠ [] → (∀ t ∈ es, t.isDecimalFree = true) →
      ∃ r, foldTerms op es = .ok r ∧ r.isDecimalFree = true := by
    intro op es hne hes
    exact ⟨_, foldTerms_eq op hes, hereditary_isDecimalFree.foldTerms hne hes (foldTerms_eq op hes)⟩
  induction e using Expr.induction with
  | negation e ih =>
    obtain ⟨e', he', hfree⟩ := ih ((hereditary_isDecimalFree.negation e).1 he)
    obtain ⟨r, hr, hrfree⟩ := hfold .product [integer (-1), e'] (List.cons_ne_nil _ _) (by
      rw [List.forall_mem_cons, List.forall_mem_singleton]
      exact ⟨rfl, hfree⟩)
    exact ⟨r, foldConstants_negation_eq_ok_iff.2 ⟨e', he', hr⟩, hrfree⟩
  | nary op a b rest ih =>
    rw [hereditary_isDecimalFree.nary] at he
    have hall : ∀ t ∈ a :: b :: rest, ∃ t', foldConstants t = .ok t' ∧ t'.isDecimalFree = true :=
      fun t ht => ih t ht (he t ht)
    obtain ⟨es, hes, hfree⟩ := exists_forall₂_of_forall_and hall
    have hne : es ≠ [] := ne_nil_of_forall₂ hes (List.cons_ne_nil _ _)
    obtain ⟨r, hr, hrfree⟩ := hfold op es hne hfree
    exact ⟨r, foldConstants_nary_eq_ok_iff.2 ⟨es, hes, hr⟩, hrfree⟩
  | division l r hl hr =>
    rw [isDecimalFree_division_iff] at he
    obtain ⟨l', hl', hlfree⟩ := hl he.1
    obtain ⟨r', hr', hrfree⟩ := hr he.2
    refine ⟨_, foldConstants_division_eq_ok_iff.2
      ⟨l', r', hl', hr', reduceQuotient_eq hlfree hrfree⟩, ?_⟩
    cases hquotient : integerQuotient? l' r' with
    | none => exact isDecimalFree_division_iff.2 ⟨hlfree, hrfree⟩
    | some c =>
      obtain ⟨a, b, -, -, -, -, rfl⟩ := integerQuotient?_eq_some_iff.1 hquotient
      rfl
  | parentheses e ih => exact ih (isDecimalFree_parentheses_iff.1 he)
  | _ => exact ⟨_, rfl, he⟩

/-! ### Folded expressions stay as they are -/

/-- Merging leaves terms that are no nodes of the operation. -/
lemma merged_eq_self {op : AssocOp} {es : List Expr} (h : ∀ e ∈ es, e.isNary op = false) :
    merged op es = es := by
  induction es with
  | nil => rfl
  | cons e es ih =>
    rw [merged, List.flatMap_cons, terms_of_not_isNary (h e List.mem_cons_self), ← merged,
      ih fun t ht => h t (List.mem_cons_of_mem e ht)]
    rfl

/-- A folded expression comes out of folding unchanged. -/
theorem Folded.foldConstants_eq {e : Expr} (h : Folded e) : foldConstants e = .ok e := by
  induction h with
  | integer n => rfl
  | var s => rfl
  | @nary op a b rest hfolded hnary htidy ih =>
    have hterms : List.Forall₂ (fun e e' => foldConstants e = .ok e') (a :: b :: rest)
        (a :: b :: rest) := List.forall₂_same.2 ih
    refine foldConstants_nary_eq_ok_iff.2 ⟨_, hterms, ?_⟩
    have hzero : op = .product → Expr.integer 0 ∉ a :: b :: rest := by
      intro hop hmem
      rcases List.mem_cons.1 hmem with ha | hmem
      · exact (htidy.1 0 ha.symm).2 hop rfl
      · exact Bool.noConfusion (htidy.2 _ hmem)
    rw [foldTerms_eq op fun t ht => (hfolded t ht).isDecimalFree, merged_eq_self hnary,
      folded_eq_ofTerms hzero fun t ht => (hfolded t ht).isExact,
      foldedTerms_of_tidy htidy fun t ht => (hfolded t ht).isDecimalFree]
    rfl
  | @division l r hl hr hquotient ihl ihr =>
    refine foldConstants_division_eq_ok_iff.2 ⟨l, r, ihl, ihr, ?_⟩
    rw [reduceQuotient_eq hl.isDecimalFree hr.isDecimalFree, hquotient]
    rfl

/-- A folded expression comes out of flattening unchanged. -/
theorem Folded.flatten_eq {e : Expr} (h : Folded e) : e.flatten = e := by
  induction h with
  | integer n => rfl
  | var s => rfl
  | @nary op a b rest hfolded hnary htidy ih =>
    have hterms : flatten a :: flatten b :: flattenAll rest = a :: b :: rest := by
      rw [flattenAll_eq_map]
      exact (List.map_congr_left ih).trans (List.map_id (a :: b :: rest))
    rw [flatten, hterms, merged_eq_self hnary,
      gather_of_isExact op fun t ht => (hfolded t ht).isExact]
    rfl
  | division _ _ _ hl hr => rw [flatten, hl, hr]

/-! ### Complexity -/

/-- What a term of an operation counts for: its complexity and one joint. -/
def weight (op : AssocOp) (e : Expr) : ℕ :=
  e.complexity + op.cost

/-- The complexities are added up. -/
lemma complexityAll_eq_sum (es : List Expr) : complexityAll es = (es.map complexity).sum := by
  induction es with
  | nil => rfl
  | cons e es ih => rw [complexityAll, ih, List.map_cons, List.sum_cons]

/-- The complexity of a node with one joint more is what its terms count for. -/
lemma weight_ofTerms (op : AssocOp) {es : List Expr} (hne : es ≠ []) :
    (ofTerms op es).weight op = (es.map (weight op)).sum := by
  have hsum : ∀ ts : List Expr, (ts.map (weight op)).sum =
      (ts.map complexity).sum + op.cost * ts.length := by
    intro ts
    induction ts with
    | nil => rfl
    | cons t ts ih =>
      rw [List.map_cons, List.map_cons, List.sum_cons, List.sum_cons, ih, List.length_cons, weight]
      ring
  match es, hne with
  | [e], _ => simp [ofTerms]
  | a :: b :: rest, _ =>
    rw [hsum, weight, ofTerms, complexity, complexityAll_eq_sum]
    simp only [List.map_cons, List.sum_cons, List.length_cons]
    ring

/-- Merging operands does not change what they count for. -/
lemma sum_weight_merged (op : AssocOp) (es : List Expr) :
    ((merged op es).map (weight op)).sum = (es.map (weight op)).sum := by
  induction es with
  | nil => rfl
  | cons e es ih =>
    rw [merged, List.flatMap_cons, List.map_append, List.sum_append, ← merged, ih,
      ← weight_ofTerms op (terms_ne_nil op e), ofTerms_terms, List.map_cons, List.sum_cons]

/-- The terms that folding leaves count for no more than all terms. -/
lemma sum_weight_foldedTerms_le (op : AssocOp) (terms : List Expr) :
    ((foldedTerms op (foldedConstant op terms) terms).map (weight op)).sum ≤
      (terms.map (weight op)).sum := by
  have hsplit : (terms.map (weight op)).sum =
      ((terms.filter isConstant).map (weight op)).sum +
        ((terms.filter fun e => !e.isConstant).map (weight op)).sum := by
    rw [← List.sum_append, ← List.map_append]
    exact (((List.filter_append_perm isConstant terms).map (weight op)).sum_eq).symm
  rcases foldedTerms_cases op terms with h | ⟨h, hints, -⟩
  · rw [h, hsplit]
    exact Nat.le_add_left _ _
  · -- One integer takes the place of one or more.
    obtain ⟨n, hn⟩ := List.exists_mem_of_ne_nil _ hints
    obtain ⟨t, ht, hvalue⟩ := List.mem_filterMap.1 hn
    rw [integer?_eq_some_iff] at hvalue
    have hmem : weight op t ∈ (terms.filter isConstant).map (weight op) :=
      List.mem_map_of_mem (List.mem_filter.2 ⟨ht, by rw [hvalue]; rfl⟩)
    have hone : weight op t = 1 + op.cost := by rw [hvalue]; rfl
    rw [h, hsplit, List.map_cons, List.sum_cons]
    refine Nat.add_le_add_right ?_ _
    calc (integer (op.total (terms.filterMap integer?))).weight op = weight op t := hone.symm
      _ ≤ _ := List.single_le_sum (fun _ _ => Nat.zero_le _) _ hmem

/-- Folding operands does not make them more complicated than they are side by side. -/
lemma weight_foldTerms_le {op : AssocOp} {es : List Expr} (hne : es ≠ [])
    (h : ∀ e ∈ es, e.isExact = true) {r : Expr} (hr : foldTerms op es = .ok r) :
    r.weight op ≤ (es.map (weight op)).sum := by
  have hmerged := (hereditary_isExact.merged op es).2 h
  rw [foldTerms_eq op fun e he => isDecimalFree_of_isExact (h e he), Except.ok.injEq] at hr
  rw [← hr, ← sum_weight_merged]
  by_cases hzero : op = .product ∧ integer 0 ∈ merged op es
  · obtain ⟨rfl, hmem⟩ := hzero
    rw [folded_eq_zero hmem]
    exact List.single_le_sum (fun _ _ => Nat.zero_le _) _ (List.mem_map_of_mem hmem)
  · rw [not_and] at hzero
    have hleft := foldedTerms_foldedConstant_ne_nil op (merged_ne_nil op hne)
      fun t ht => isDecimalFree_of_isExact (hmerged t ht)
    rw [folded_eq_ofTerms hzero hmerged, weight_ofTerms op hleft]
    exact sum_weight_foldedTerms_le op _

/-- A folded expression counts at least one. -/
lemma Folded.one_le_complexity {e : Expr} (h : Folded e) : 1 ≤ e.complexity := by
  induction h with
  | integer n => exact le_rfl
  | var s => exact Nat.le_succ 1
  | @nary op a b rest _ _ _ ih =>
    have ha := ih a List.mem_cons_self
    rw [complexity]
    omega
  | division _ _ _ _ _ =>
    rw [complexity]
    omega

/-- Only an integer counts no more than one. -/
lemma Folded.eq_integer {e : Expr} (h : Folded e) (hone : e.complexity ≤ 1) :
    ∃ n, e = Expr.integer n := by
  cases h with
  | integer n => exact ⟨n, rfl⟩
  | var s =>
    rw [complexity] at hone
    omega
  | @nary op a b rest hfolded _ _ =>
    have ha := (hfolded a List.mem_cons_self).one_le_complexity
    have hb := (hfolded b (List.mem_cons_of_mem a List.mem_cons_self)).one_le_complexity
    rw [complexity] at hone
    omega
  | division hl hr _ =>
    have hl := hl.one_le_complexity
    rw [complexity] at hone
    omega

end TermAlgebra.Expr
