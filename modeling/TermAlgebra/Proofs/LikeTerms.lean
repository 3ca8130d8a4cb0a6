import Mathlib.Tactic
import TermAlgebra.Proofs.Merging
import TermAlgebra.Proofs.ShortRuns

/-!
# Like terms in simplified trees

A simplified tree has like terms in a sum only where the form in which they are merged is no simpler
(`likeFree_of_simplify`).

What is compared in a step are whole trees, and the sides of divisions are trees of their own.  So
the tree in question is not the sum but the layer around it (`Layer`): the simplified tree, or the
innermost side of a division with the sum in it.  A layer that is its own simplified form is at rest
(`atRest_of_simplify`), so that it is no more complicated than its expanded and collected form
(`AtRest.cases`).  In that form like terms are merged: if there are any in a layer, there are some
in the expanded layer (`Folded.repeated_of_like`, `Folded.expands`), and collecting saves two at
least (`Folded.complexity_collect_of_like`).  Where no product has a sum among its factors,
expanding costs nothing (`Folded.expand_eq_self`), and there are no like terms
(`Folded.hasSumFactor_of_like`).

Ties are decided in favour of the tree as it stands, as in `like_terms_kept`.  If no run is broken
off, all layers are their own simplified forms (`Layer.settles`).  In a tree that is left when a run
is broken off a layer may be unfinished, with like terms that one more step would merge: quotients
nested deeply enough can let new like terms appear in each step.  But no run from a simple
expression is broken off (`settles_of_simple`).
-/

namespace TermAlgebra.Expr

/-- Whether no two terms of a list have the same factors. -/
def LikeFree (ts : List Expr) : Prop :=
  ts.Pairwise fun t u => ¬ t.factors.Perm u.factors

/-! ### Trees that are expanded already -/

/-- Whether some product in an expression has a sum among its factors, at any depth. -/
def hasSumFactor (e : Expr) : Bool :=
  e.parts.any fun t => t.isNary .product && (t.terms .product).any (isNary .sum)

/-- No product in an expression has a sum among its factors if none of its parts is such one. -/
lemma hasSumFactor_eq_false_iff {e : Expr} :
    e.hasSumFactor = false ↔ ∀ a b rest, product a b rest ∈ e.parts →
      ∀ t ∈ a :: b :: rest, t.isNary .sum = false := by
  rw [hasSumFactor, List.any_eq_false]
  constructor
  · intro h a b rest hmem t ht
    have hnot := h _ hmem
    rw [terms_nary] at hnot
    by_contra hsum
    rw [Bool.not_eq_false] at hsum
    exact hnot (List.any_eq_true.2 ⟨t, ht, hsum⟩)
  · intro h t ht hfactor
    obtain ⟨hproduct, hany⟩ := Bool.and_eq_true_iff.1 hfactor
    obtain ⟨u, hu, hsum⟩ := List.any_eq_true.1 hany
    rcases eq_nary_or_not_isNary .product t with ⟨a, b, rest, rfl⟩ | hnot
    · rw [terms_nary] at hu
      rw [h a b rest ht u hu] at hsum
      exact Bool.noConfusion hsum
    · rw [hnot] at hproduct
      exact Bool.noConfusion hproduct

/-- If no product in an expression has a sum among its factors, none in a part of it has. -/
lemma hasSumFactor_of_parts {e u : Expr} (hsub : ∀ t ∈ u.parts, t ∈ e.parts)
    (h : e.hasSumFactor = false) : u.hasSumFactor = false := by
  rw [hasSumFactor_eq_false_iff] at h ⊢
  exact fun a b rest hmem => h a b rest (hsub _ hmem)

/-- A folded tree in which no product has a sum among its factors is expanded already. -/
lemma Folded.expand_eq_self {e : Expr} (h : Folded e) (hfree : e.hasSumFactor = false) :
    e.expand = e := by
  refine Distributed.expand_eq fun t ht => ?_
  cases h.of_mem_parts ht with
  | nary op _ hnary _ =>
    cases op with
    | sum => exact fun t ht => ⟨hnary t ht, hnary t ht⟩
    | product =>
      exact fun u hu => ⟨hasSumFactor_eq_false_iff.1 hfree _ _ _ ht u hu, hnary u hu⟩
  | _ => trivial

/-! ### Layers -/

/-- The layers of a tree: the tree itself, and the layers of the sides of the divisions among its
outer parts. -/
inductive Layer : Expr → Expr → Prop
  | self (r : Expr) : Layer r r
  | left {r l s q : Expr} : division l s ∈ r.outerParts → Layer l q → Layer r q
  | right {r l s q : Expr} : division l s ∈ r.outerParts → Layer s q → Layer r q

/-- The layers of an expression whose outer parts are outer parts of a tree. -/
lemma Layer.of_outerParts {r u q t : Expr} (hsub : ∀ d ∈ u.outerParts, d ∈ r.outerParts)
    (h : Layer u q) (ht : t ∈ q.outerParts) : ∃ q, Layer r q ∧ t ∈ q.outerParts := by
  cases h with
  | self => exact ⟨r, .self r, hsub t ht⟩
  | left hd h => exact ⟨q, .left (hsub _ hd) h, ht⟩
  | right hd h => exact ⟨q, .right (hsub _ hd) h, ht⟩

/-- Every part of a tree is an outer part of one of its layers. -/
lemma exists_layer_of_mem_parts {r t : Expr} (ht : t ∈ r.parts) :
    ∃ q, Layer r q ∧ t ∈ q.outerParts := by
  induction r using Expr.induction with
  | negation e ih =>
    rcases List.mem_cons.1 ht with rfl | ht
    · exact ⟨negation e, .self _, List.mem_cons_self⟩
    · obtain ⟨q, hq, htq⟩ := ih ht
      exact hq.of_outerParts (fun d hd => List.mem_cons_of_mem _ hd) htq
  | nary op a b rest ih =>
    rcases mem_parts_nary.1 ht with rfl | ⟨u, hu, ht⟩
    · exact ⟨nary op a b rest, .self _, List.mem_cons_self⟩
    · obtain ⟨q, hq, htq⟩ := ih u hu ht
      exact hq.of_outerParts (fun d hd => mem_outerParts_nary.2 (Or.inr ⟨u, hu, hd⟩)) htq
  | division l s ihl ihs =>
    rw [parts, List.mem_cons, List.mem_append] at ht
    rcases ht with rfl | ht | ht
    · exact ⟨division l s, .self _, List.mem_cons_self⟩
    · obtain ⟨q, hq, htq⟩ := ihl ht
      exact ⟨q, .left List.mem_cons_self hq, htq⟩
    · obtain ⟨q, hq, htq⟩ := ihs ht
      exact ⟨q, .right List.mem_cons_self hq, htq⟩
  | parentheses e ih =>
    rcases List.mem_cons.1 ht with rfl | ht
    · exact ⟨parentheses e, .self _, List.mem_cons_self⟩
    · obtain ⟨q, hq, htq⟩ := ih ht
      exact hq.of_outerParts (fun d hd => List.mem_cons_of_mem _ hd) htq
  | _ => exact ⟨_, .self _, ht⟩

/-- The sides of a division among the outer parts of an exact tree are exact. -/
lemma isExact_of_mem_outerParts {r l s : Expr} (hr : r.isExact = true)
    (hd : division l s ∈ r.outerParts) : l.isExact = true ∧ s.isExact = true :=
  isExact_division_iff.1 (consistsOf_of_mem_parts hr (mem_parts_of_mem_outerParts hd))

/-- The layers of an exact tree are exact. -/
lemma Layer.isExact {r q : Expr} (hq : Layer r q) (hr : r.isExact = true) : q.isExact = true := by
  induction hq with
  | self => exact hr
  | left hd _ ih => exact ih (isExact_of_mem_outerParts hr hd).1
  | right hd _ ih => exact ih (isExact_of_mem_outerParts hr hd).2

/-- If no product in a tree has a sum among its factors, none in a layer of it has. -/
lemma Layer.hasSumFactor {r q : Expr} (hq : Layer r q) (h : r.hasSumFactor = false) :
    q.hasSumFactor = false := by
  induction hq with
  | self => exact h
  | left hd _ ih =>
    exact ih (hasSumFactor_of_parts (parts_of_division (mem_parts_of_mem_outerParts hd)).1 h)
  | right hd _ ih =>
    exact ih (hasSumFactor_of_parts (parts_of_division (mem_parts_of_mem_outerParts hd)).2 h)

/-! ### Trees at rest -/

/-- Whether a folded tree is left as it is by a step, in which no run is broken off. -/
structure AtRest (r : Expr) : Prop where
  folded : Folded r
  settles : (stepWith simplifyTraced r).Settles r

/-- If no run is broken off, simplification of an exact tree ends at a tree at rest. -/
lemma atRest_of_simplify {e r : Expr} (he : e.isExact = true) (h : e.simplifyTraced.Settles r) :
    AtRest r :=
  ⟨(restsAt_of_settles he h).folded, (restsAt_of_settles he h).settles⟩

/-- The divisions of a tree at rest are resolved already, and unless it is a division, its expanded
and collected form is no simpler than the tree. -/
lemma AtRest.cases {r : Expr} (h : AtRest r) :
    (resolveDivisions simplifyTraced r).Settles r ∧
      (r.isDivision = false → ∃ collected, collect r.expand = .ok collected ∧
        r.complexity ≤ collected.foldedForm.complexity) := by
  have hside := settlesBelow_simplifyTraced r.divisionDepth
  obtain ⟨flat, hflat, -, hcases⟩ := stepWith_cases hside h.folded.isExact le_rfl h.settles
  rw [h.folded.flatten_eq] at hflat
  rcases hcases with ⟨hdivision, rfl⟩ |
    ⟨-, direct, collected, folded, hdirect, hcollected, hfold, -, -, hr⟩
  · exact ⟨hflat, fun hnot => by rw [hnot] at hdivision; exact Bool.noConfusion hdivision⟩
  · obtain ⟨hle, hshape⟩ := resolveDivisions_of_folded hside h.folded le_rfl hflat hdirect
    rw [simplestOf_singleton] at hr
    split at hr
    · -- The collected form would be simpler than the tree, which is this form.
      subst hr
      omega
    · next hsimpler =>
      subst hr
      obtain rfl := (hshape rfl).eq_of_foldConstants hdirect
      refine ⟨hflat, fun _ => ⟨collected, hcollected, ?_⟩⟩
      rw [foldedForm_of_foldConstants hfold]
      exact Nat.le_of_not_lt hsimpler

/-- Where the divisions of a folded tree are resolved already, the sides of those among its outer
parts are simplified to themselves. -/
lemma settles_sides {r l s : Expr} (hr : Folded r)
    (h : (resolveDivisions simplifyTraced r).Settles r) (hd : division l s ∈ r.outerParts) :
    l.simplifyTraced.Settles l ∧ s.simplifyTraced.Settles s := by
  induction hr with
  | integer n => exact nomatch List.mem_singleton.1 hd
  | var v => exact nomatch List.mem_singleton.1 hd
  | @nary op a b rest _ _ _ ih =>
    obtain ⟨es, hes, heq⟩ := yields_resolveDivisions_nary_iff.1 h
    have hself : es = a :: b :: rest := by
      obtain _ | ⟨_, _ | ⟨_, _⟩⟩ := hes
      obtain ⟨-, rfl, rfl, rfl⟩ := nary.inj heq
      rfl
    rw [hself, List.forall₂_same] at hes
    rcases mem_outerParts_nary.1 hd with hd | ⟨u, hu, hd⟩
    · exact nomatch hd
    · exact ih u hu (hes u hu) hd
  | @division a b ha hb hirreducible _ _ =>
    obtain ⟨rfl, rfl⟩ := division.inj (List.mem_singleton.1 hd)
    have hexact : ∀ {t t' : Expr}, Folded t → t.simplifyTraced.Settles t' → t'.isExact = true :=
      fun ht ht' => (rewrites_of_yields_simplifyTraced ht').isExact ht.isExact
    rcases quotient_of_resolveDivision (isExact_division_iff.2 ⟨ha.isExact, hb.isExact⟩)
        (fun _ => hexact ha) (fun _ => hexact hb) h with hq | ⟨-, l', s', hl, hs, hq⟩
    · rw [hirreducible] at hq
      exact nomatch hq
    · cases hquotient : integerQuotient? l' s' with
      | none =>
        rw [hquotient, Option.getD_none] at hq
        obtain ⟨rfl, rfl⟩ := division.inj hq
        exact ⟨hl, hs⟩
      | some c =>
        obtain ⟨n, m, -, -, -, -, rfl⟩ := integerQuotient?_eq_some_iff.1 hquotient
        rw [hquotient] at hq
        exact nomatch hq

/-- If no run is broken off, none is in simplifying the result again, which changes nothing. -/
lemma settles_again {e r : Expr} (he : e.isExact = true) (h : e.simplifyTraced.Settles r) :
    r.simplifyTraced.Settles r := by
  have hrests := restsAt_of_settles he h
  refine ⟨(settlesBelow_simplifyTraced _ e r he (Nat.lt_succ_self _) h).fixed, ?_⟩
  let es : ℕ → Expr := fun _ => r
  have hsteps : ∀ k < 1, (stepWith simplifyTraced (es k)).Settles (es (k + 1)) :=
    fun _ _ => hrests.settles
  rw [simplifyTraced_eq_runWith]
  exact isUnsettled_runFrom hsteps le_rfl (by simp [es, recurs_self hrests.folded.isExact])
    stepLimit 0 (Nat.zero_le _) (by decide)

/-- All layers of a simplified tree are simplified if it is so itself. -/
lemma Layer.settles {r q : Expr} (hq : Layer r q) (hr : r.isExact = true)
    (h : r.simplifyTraced.Settles r) : q.simplifyTraced.Settles q := by
  have hsides : ∀ {r l s : Expr}, r.isExact = true → r.simplifyTraced.Settles r →
      division l s ∈ r.outerParts → l.simplifyTraced.Settles l ∧ s.simplifyTraced.Settles s := by
    intro r l s hr h hd
    have hrest := atRest_of_simplify hr h
    exact settles_sides hrest.folded hrest.cases.1 hd
  induction hq with
  | self => exact h
  | left hd _ ih => exact ih (isExact_of_mem_outerParts hr hd).1 (hsides hr h hd).1
  | right hd _ ih => exact ih (isExact_of_mem_outerParts hr hd).2 (hsides hr h hd).2

/-- A folded tree with like terms in a sum costs at least two more when it is expanded than after
collecting. -/
lemma Folded.complexity_collect_of_like {q a b collected : Expr} {rest : List Expr} (h : Folded q)
    (hsum : sum a b rest ∈ q.outerParts) (hlike : ¬ LikeFree (a :: b :: rest))
    (hcollected : collect q.expand = .ok collected) :
    collected.foldedForm.complexity + 2 ≤ q.expand.foldedForm.complexity := by
  have hfolded := h.of_mem_parts (mem_parts_of_mem_outerParts hsum)
  -- The like terms leave a repeated monomial, which the expanded tree has as well.
  obtain ⟨t, u, hsub, hperm⟩ : ∃ t u, [t, u].Sublist (a :: b :: rest) ∧
      t.factors.Perm u.factors := by
    simpa [LikeFree, List.pairwise_iff_forall_sublist] using hlike
  have hrepeated := (hfolded.repeated_of_like hsub hperm).of_outerParts hsum
  rw [← h.expands.outline] at hrepeated
  exact h.expands.expanded.complexity_collect_of_like hrepeated.hasLike hcollected

/-- A folded tree with like terms in a sum that is no more complicated than its collected form has a
product with a sum among its factors. -/
lemma Folded.hasSumFactor_of_like {q a b collected : Expr} {rest : List Expr} (h : Folded q)
    (hsum : sum a b rest ∈ q.outerParts) (hlike : ¬ LikeFree (a :: b :: rest))
    (hcollected : collect q.expand = .ok collected)
    (hle : q.complexity ≤ collected.foldedForm.complexity) : q.hasSumFactor = true := by
  have hmerged := h.complexity_collect_of_like hsum hlike hcollected
  by_contra hfree
  rw [Bool.not_eq_true] at hfree
  rw [h.expand_eq_self hfree, h.foldedForm_eq] at hmerged
  omega

/-! ### Simplified trees -/

/-- An exact tree can be expanded, collected and folded. -/
lemma exists_collect_expand {q : Expr} (hexact : q.isExact = true) :
    ∃ collected, collect q.expand = .ok collected ∧
      foldConstants collected = .ok collected.foldedForm := by
  obtain ⟨collected, hcollected, -⟩ := exists_collectUpTo q.expand.openSize q.expand
    (isDecimalFree_of_isExact ((rewrites_expand q).isExact hexact))
  have hrewrites := (rewrites_expand q).trans (rewrites_of_collect hcollected)
  exact ⟨collected, hcollected, foldConstants_eq_foldedForm (hrewrites.isExact hexact)⟩

/-- A simplified tree has like terms in a sum only where the layer around the sum is no more
complicated than the form that expanding, collecting and folding gives it, and has a product with a
sum among its factors, or else where this layer has been left unfinished, so that simplifying it
again changes it or is broken off. That takes a run that was broken off before, and an expression of
complexity 17 or more. -/
theorem likeFree_of_simplify {e r : Expr} (he : e.isExact = true) (h : e.simplify = .ok r)
    {a b : Expr} {rest : List Expr} (hsum : sum a b rest ∈ r.parts) :
    LikeFree (a :: b :: rest) ∨ ∃ q collected c, Layer r q ∧ sum a b rest ∈ q.outerParts ∧
      collect q.expand = .ok collected ∧ foldConstants collected = .ok c ∧
      (q.complexity ≤ c.complexity ∧ q.hasSumFactor = true ∨
        ¬ q.simplifyTraced.Settles q ∧ ¬ e.simplifyTraced.Settles r ∧ 16 < e.complexity) := by
  obtain ⟨q, hq, hmem⟩ := exists_layer_of_mem_parts hsum
  have hr := (rewrites_of_yields_simplifyTraced (Traced.yields_true_iff.2 h)).isExact he
  by_cases hlike : LikeFree (a :: b :: rest)
  · exact Or.inl hlike
  · obtain ⟨collected, hcollected, hfold⟩ := exists_collect_expand (hq.isExact hr)
    refine Or.inr ⟨q, collected, _, hq, hmem, hcollected, hfold, ?_⟩
    by_cases hfinished : q.simplifyTraced.Settles q
    · have hrest := atRest_of_simplify (hq.isExact hr) hfinished
      have hnot : q.isDivision = false := by
        cases q with
        | division l s => exact nomatch List.mem_singleton.1 hmem
        | _ => rfl
      obtain ⟨collected', hcollected', hle⟩ := hrest.cases.2 hnot
      obtain rfl : collected' = collected := Except.ok.inj (hcollected'.symm.trans hcollected)
      exact Or.inl ⟨hle, hrest.folded.hasSumFactor_of_like hmem hlike hcollected hle⟩
    · have hsettles : ¬ e.simplifyTraced.Settles r := fun hsettles =>
        hfinished (hq.settles hr (settles_again he hsettles))
      refine Or.inr ⟨hfinished, hsettles, ?_⟩
      by_contra hsimple
      exact hsettles (settles_of_simple he (Nat.le_of_not_lt hsimple) h)

/-- For instance a quotient with like terms in its left side. -/
theorem likeFree_of_simplify_quotient :
    LikeFree [product (integer 4) (var "x") [], var "y"] := by
  have hresult : (division (sum (var "x") (var "y")
      [product (integer 3) (var "x") []]) (var "z")).simplify =
        .ok (division (sum (product (integer 4) (var "x") []) (var "y") []) (var "z")) :=
    eq_ok_of_returns rfl (by decide +kernel)
  rcases likeFree_of_simplify rfl hresult (List.mem_cons_of_mem _ List.mem_cons_self) with
    hfree | ⟨q, _, _, hq, -, -, -, ⟨-, hfactor⟩ | ⟨-, -, hlarge⟩⟩
  · exact hfree
  · rw [hq.hasSumFactor (by decide +kernel)] at hfactor
    exact Bool.noConfusion hfactor
  · exact absurd hlarge (by decide)

/-- Like terms are kept where merging them would not save more than expanding the rest costs. -/
theorem like_terms_kept :
    (sum (product (integer 2) (sum (var "a") (var "b") []) []) (var "x") [var "x"]).simplify =
        .ok (sum (product (integer 2) (sum (var "a") (var "b") []) []) (var "x") [var "x"]) ∧
      ¬ LikeFree [product (integer 2) (sum (var "a") (var "b") []) [], var "x", var "x"] := by
  refine ⟨eq_ok_of_returns rfl (by decide +kernel), fun hfree => ?_⟩
  rw [LikeFree, List.pairwise_cons, List.pairwise_cons] at hfree
  exact hfree.2.1 _ List.mem_cons_self (List.Perm.refl _)

end TermAlgebra.Expr
