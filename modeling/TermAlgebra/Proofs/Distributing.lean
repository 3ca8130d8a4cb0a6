import Mathlib.Algebra.FreeMonoid.Basic
import Mathlib.Tactic
import TermAlgebra.Proofs.NormalForm

/-!
# Sums of products

What an expanded tree looks like at every depth, and what it depends on.

In an expanded tree there are no signs and no parentheses, a sum has no sums among its terms, and a
product neither sums nor products (`Distributed`, `distributed_expand`).  Such a tree is expanded to
itself (`Distributed.expand_eq`).

A tree of this form can be told from its summands, each of which is the word of its factors
(`summands`, `eq_of_summands_eq`).  The summands of an expanded sum are those of its terms, one
after the other, and those of an expanded product are all products of one summand of each factor
(`summands_expand_sum`, `summands_expand_product`).  Hence nested sums and products are expanded to
the same tree as merged ones (`expand_ofTerms_merged`), and flattening before expanding makes no
difference (`expand_flatten`).
-/

namespace TermAlgebra.Expr

/-! ### Distributed expressions -/

/-- Whether the topmost node of an expression is one that an expanded expression may have. -/
def DistributedNode : Expr → Prop
  | integer _ | decimal _ | var _ | division _ _ => True
  | empty | negation _ | parentheses _ => False
  | nary op a b rest => ∀ t ∈ a :: b :: rest, t.isNary .sum = false ∧ t.isNary op = false

/-- Whether a node is one of an expanded expression can be decided. -/
instance : DecidablePred DistributedNode
  | integer _ | decimal _ | var _ | division _ _ => inferInstanceAs (Decidable True)
  | empty | negation _ | parentheses _ => inferInstanceAs (Decidable False)
  | nary op a b rest => inferInstanceAs (Decidable (∀ t ∈ a :: b :: rest, _ ∧ t.isNary op = false))

/-- For instance a sum of products may be such a node, but not a product of sums. -/
example : (sum (product (var "x") (var "y") []) (var "z") []).DistributedNode ∧
    ¬ (product (sum (var "x") (var "y") []) (var "z") []).DistributedNode := by decide

/-- Whether all nodes of an expression are those of an expanded one. -/
def Distributed (e : Expr) : Prop :=
  ∀ t ∈ e.parts, t.DistributedNode

/-- A node is distributed if it is on top and its terms are. -/
lemma distributed_nary {op : AssocOp} {a b : Expr} {rest : List Expr} :
    Distributed (nary op a b rest) ↔
      ∀ t ∈ a :: b :: rest, Distributed t ∧ t.isNary .sum = false ∧ t.isNary op = false := by
  constructor
  · intro h t ht
    refine ⟨fun u hu => h u (mem_parts_nary.2 (Or.inr ⟨t, ht, hu⟩)), ?_⟩
    exact h _ (mem_parts_nary.2 (Or.inl rfl)) t ht
  · intro h u hu
    rcases mem_parts_nary.1 hu with rfl | ⟨t, ht, hu⟩
    · exact fun t ht => (h t ht).2
    · exact (h t ht).1 u hu

/-- A division is distributed if its sides are. -/
lemma distributed_division {l r : Expr} :
    Distributed (division l r) ↔ Distributed l ∧ Distributed r := by
  have hself : division l r ∈ (division l r).parts := List.mem_cons_self
  constructor
  · intro h
    obtain ⟨hl, hr⟩ := parts_of_division hself
    exact ⟨fun t ht => h t (hl t ht), fun t ht => h t (hr t ht)⟩
  · rintro ⟨hl, hr⟩ t ht
    rw [parts, List.mem_cons, List.mem_append] at ht
    rcases ht with rfl | ht | ht
    · trivial
    · exact hl t ht
    · exact hr t ht

/-- Nothing distributed is empty. -/
lemma Distributed.isEmpty {e : Expr} (h : Distributed e) : e.isEmpty = false := by
  cases e with
  | empty => exact (h empty List.mem_cons_self).elim
  | _ => rfl

/-- The terms of a distributed sum are distributed, and none of them is a sum. -/
lemma Distributed.summand {e t : Expr} (h : Distributed e) (ht : t ∈ e.terms .sum) :
    Distributed t ∧ t.isNary .sum = false := by
  rcases eq_nary_or_not_isNary .sum e with ⟨a, b, rest, rfl⟩ | hnot
  · rw [terms_nary] at ht
    obtain ⟨hterm, hsum, -⟩ := distributed_nary.1 h t ht
    exact ⟨hterm, hsum⟩
  · rw [terms_of_not_isNary hnot, List.mem_singleton] at ht
    rw [ht]
    exact ⟨h, hnot⟩

/-- The factors of a distributed expression that is no sum are distributed, and none of them is a
sum or a product. -/
lemma Distributed.factor {e t : Expr} (h : Distributed e) (hnot : e.isNary .sum = false)
    (ht : t ∈ e.terms .product) :
    Distributed t ∧ t.isNary .sum = false ∧ t.isNary .product = false := by
  rcases eq_nary_or_not_isNary .product e with ⟨a, b, rest, rfl⟩ | hfactor
  · rw [terms_nary] at ht
    exact distributed_nary.1 h t ht
  · rw [terms_of_not_isNary hfactor, List.mem_singleton] at ht
    rw [ht]
    exact ⟨h, hnot, hfactor⟩

section Building

variable {es : List Expr} (hne : es ≠ [])

include hne

/-- A sum of distributed expressions that are no sums is distributed. -/
lemma distributed_ofTerms_sum (h : ∀ t ∈ es, Distributed t ∧ t.isNary .sum = false) :
    Distributed (ofTerms .sum es) := by
  match es, hne with
  | [e], _ => exact (h e List.mem_cons_self).1
  | a :: b :: rest, _ =>
    refine distributed_nary.2 fun t ht => ?_
    obtain ⟨hterm, hsum⟩ := h t ht
    exact ⟨hterm, hsum, hsum⟩

/-- A product of distributed expressions that are no sums and no products is distributed and no
sum. -/
lemma distributed_ofTerms_product
    (h : ∀ t ∈ es, Distributed t ∧ t.isNary .sum = false ∧ t.isNary .product = false) :
    Distributed (ofTerms .product es) ∧ (ofTerms .product es).isNary .sum = false := by
  match es, hne with
  | [e], _ =>
    obtain ⟨hterm, hsum, -⟩ := h e List.mem_cons_self
    exact ⟨hterm, hsum⟩
  | a :: b :: rest, _ => exact ⟨distributed_nary.2 h, rfl⟩

end Building

/-! ### Distributing -/

section Distribute

variable {es : List Expr} (hne : es ≠ []) (h : ∀ e ∈ es, Distributed e)

include hne h

/-- What a choice of summands is made of is distributed, and neither a sum nor a product. -/
lemma merged_of_mem_choices {c : List Expr} (hc : c ∈ choices es) :
    merged .product c ≠ [] ∧ ∀ t ∈ merged .product c,
      Distributed t ∧ t.isNary .sum = false ∧ t.isNary .product = false := by
  refine ⟨merged_ne_nil .product (ne_nil_of_mem_choices hne hc), fun t ht => ?_⟩
  obtain ⟨u, hu, ht⟩ := mem_merged.1 ht
  obtain ⟨e, he, hu⟩ := exists_of_mem_choices hc hu
  obtain ⟨hsummand, hsum⟩ := (h e he).summand hu
  exact hsummand.factor hsum ht

/-- The products of all choices of summands are distributed, and no sums. -/
lemma distributed_product_of_mem_choices {c : List Expr} (hc : c ∈ choices es) :
    Distributed (ofTerms .product (merged .product c)) ∧
      (ofTerms .product (merged .product c)).isNary .sum = false := by
  obtain ⟨hmerged, hfactors⟩ := merged_of_mem_choices hne h hc
  exact distributed_ofTerms_product hmerged hfactors

/-- The product of a choice has nothing empty in it to be left out. -/
lemma gather_of_mem_choices {c : List Expr} (hc : c ∈ choices es) :
    gather .product (merged .product c) = ofTerms .product (merged .product c) :=
  gather_eq_ofTerms .product fun t ht => ((merged_of_mem_choices hne h hc).2 t ht).1.isEmpty

/-- Distributing makes the sum of the products of all choices. -/
lemma distribute_eq_ofTerms :
    distribute es =
      ofTerms .sum ((choices es).map fun c => ofTerms .product (merged .product c)) := by
  have hproducts : (choices es).map (fun c => gather .product (merged .product c)) =
      (choices es).map fun c => ofTerms .product (merged .product c) :=
    List.map_congr_left fun c hc => gather_of_mem_choices hne h hc
  rw [distribute, hproducts, gather_eq_ofTerms .sum]
  rw [List.forall_mem_map]
  exact fun c hc => (distributed_product_of_mem_choices hne h hc).1.isEmpty

/-- The products of all choices are the terms of the sum that distributing makes. -/
lemma terms_distribute :
    (distribute es).terms .sum =
      (choices es).map fun c => ofTerms .product (merged .product c) := by
  rw [distribute_eq_ofTerms hne h, terms_ofTerms (by simpa using choices_ne_nil es)]
  rw [List.forall_mem_map]
  exact fun c hc => (distributed_product_of_mem_choices hne h hc).2

/-- Distributing a product of distributed expressions leaves a distributed one. -/
lemma distributed_distribute : Distributed (distribute es) := by
  rw [distribute_eq_ofTerms hne h]
  refine distributed_ofTerms_sum (by simpa using choices_ne_nil es) ?_
  rw [List.forall_mem_map]
  exact fun c hc => distributed_product_of_mem_choices hne h hc

end Distribute

/-- Merged terms of distributed sums are gathered into a distributed sum. -/
lemma distributed_gather_merged {es : List Expr} (hne : es ≠ []) (h : ∀ e ∈ es, Distributed e) :
    gather .sum (merged .sum es) = ofTerms .sum (merged .sum es) ∧
      Distributed (ofTerms .sum (merged .sum es)) := by
  have hterms : ∀ t ∈ merged .sum es, Distributed t ∧ t.isNary .sum = false := by
    intro t ht
    obtain ⟨e, he, ht⟩ := mem_merged.1 ht
    exact (h e he).summand ht
  exact ⟨gather_eq_ofTerms .sum fun t ht => (hterms t ht).1.isEmpty,
    distributed_ofTerms_sum (merged_ne_nil .sum hne) hterms⟩

/-- Expanded expressions are distributed. -/
theorem distributed_expand {e : Expr} (h : e.isEmptyFree = true) : Distributed e.expand := by
  have hleaf : ∀ {u : Expr}, u.parts = [u] → u.DistributedNode → Distributed u := by
    intro u hu hnode t ht
    rw [hu, List.mem_singleton] at ht
    rwa [ht]
  induction e using Expr.induction with
  | empty => exact Bool.noConfusion h
  | integer n => exact hleaf rfl trivial
  | decimal d => exact hleaf rfl trivial
  | var s => exact hleaf rfl trivial
  | negation e ih =>
    have he := ih ((hereditary_isEmptyFree.negation e).1 h)
    refine distributed_distribute (List.cons_ne_nil _ _) ?_
    rw [List.forall_mem_cons, List.forall_mem_singleton]
    exact ⟨hleaf rfl trivial, he⟩
  | nary op a b rest ih =>
    have hterms : ∀ t ∈ (a :: b :: rest).map expand, Distributed t := by
      rw [List.forall_mem_map]
      exact fun t ht => ih t ht ((hereditary_isEmptyFree.nary op a b rest).1 h t ht)
    have hne : (a :: b :: rest).map expand ≠ [] := List.cons_ne_nil _ _
    cases op with
    | sum =>
      obtain ⟨hgather, hdistributed⟩ := distributed_gather_merged hne hterms
      rwa [expand_sum, hgather]
    | product =>
      rw [expand_product]
      exact distributed_distribute hne hterms
  | division l r hl hr =>
    obtain ⟨hleft, hright⟩ := isEmptyFree_division_iff.1 h
    exact distributed_division.2 ⟨hl hleft, hr hright⟩
  | parentheses e ih => exact ih (isEmptyFree_parentheses_iff.1 h)

/-! ### Expanding again -/

/-- There is one choice only where no factor is a sum. -/
lemma choices_of_not_sum {es : List Expr} (h : ∀ e ∈ es, e.isNary .sum = false) :
    choices es = [es] := by
  induction es with
  | nil => rfl
  | cons e es ih =>
    rw [List.forall_mem_cons] at h
    rw [choices, ih h.2, terms_of_not_isNary h.1]
    rfl

/-- Distributed expressions are expanded to themselves. -/
theorem Distributed.expand_eq {e : Expr} (h : Distributed e) : e.expand = e := by
  induction e using Expr.induction with
  | negation e _ => exact (h _ List.mem_cons_self).elim
  | parentheses e _ => exact (h _ List.mem_cons_self).elim
  | nary op a b rest ih =>
    have hall := distributed_nary.1 h
    have hterms : (a :: b :: rest).map expand = a :: b :: rest :=
      (List.map_congr_left fun t ht => ih t ht (hall t ht).1).trans (List.map_id _)
    have hne : a :: b :: rest ≠ [] := List.cons_ne_nil _ _
    have hmerged : merged op (a :: b :: rest) = a :: b :: rest :=
      merged_eq_self fun t ht => (hall t ht).2.2
    cases op with
    | sum =>
      rw [expand_sum, hterms, (distributed_gather_merged hne fun t ht => (hall t ht).1).1, hmerged]
      rfl
    | product =>
      rw [expand_product, hterms, distribute_eq_ofTerms hne fun t ht => (hall t ht).1,
        choices_of_not_sum fun t ht => (hall t ht).2.1, List.map_singleton, hmerged]
      rfl
  | division l r hl hr =>
    obtain ⟨hleft, hright⟩ := distributed_division.1 h
    rw [expand, hl hleft, hr hright]
  | _ => rfl

/-! ### Multiplying out -/

section Products

variable {M N : Type} [Monoid M] [Monoid N]

/-- All products of one item of every list.  The item from the first list varies fastest. -/
def products : List (List M) → List M
  | [] => [1]
  | xs :: rest => (products rest).flatMap fun y => xs.map fun x => x * y

/-- The items of a single list are its products. -/
@[simp] lemma products_singleton (xs : List M) : products [xs] = xs := by
  simp [products]

/-- Products may be taken of some of the lists first. -/
lemma products_nested (before xss after : List (List M)) :
    products (before ++ products xss :: after) = products (before ++ (xss ++ after)) := by
  induction before with
  | cons xs before ih => rw [List.cons_append, products, ih]; rfl
  | nil =>
    rw [List.nil_append, List.nil_append]
    induction xss with
    | nil => simp [products]
    | cons xs xss ih =>
      rw [List.cons_append, products, products, products, ← ih, products]
      simp only [List.map_flatMap, List.flatMap_assoc, List.flatMap_map, List.map_map,
        Function.comp_def, mul_assoc]

/-- Products may be taken of all groups of lists first. -/
lemma products_flatMap {α : Type} (f : α → List (List M)) (as : List α) :
    products (as.flatMap f) = products (as.map fun a => products (f a)) := by
  induction as with
  | nil => rfl
  | cons a as ih =>
    have hgroup := products_nested [] (f a) (as.flatMap f)
    rw [List.nil_append, List.nil_append] at hgroup
    rw [List.flatMap_cons, ← hgroup, List.map_cons, products, products, ih]

/-- The images of products are the products of the images. -/
lemma map_products (f : M →* N) (xss : List (List M)) :
    (products xss).map f = products (xss.map fun xs => xs.map f) := by
  induction xss with
  | nil => simp [products]
  | cons xs xss ih =>
    rw [products, List.map_cons, products, ← ih]
    simp only [List.map_flatMap, List.flatMap_map, List.map_map, Function.comp_def, map_mul]

end Products

/-! ### Summands -/

/-- The summands of an expression, each of which is the word of its factors. -/
def summands (e : Expr) : List (FreeMonoid Expr) :=
  (e.terms .sum).map fun t => FreeMonoid.ofList (t.terms .product)

/-- An expression can be told from its summands. -/
lemma eq_of_summands_eq {e e' : Expr} (h : e.summands = e'.summands) : e = e' := by
  have hform : ∀ t : Expr,
      ofTerms .sum (t.summands.map fun w => ofTerms .product w.toList) = t := by
    intro t
    have hterms : t.summands.map (fun w => ofTerms .product w.toList) = t.terms .sum := by
      rw [summands, List.map_map]
      exact (List.map_congr_left fun u _ => ofTerms_terms .product u).trans (List.map_id _)
    rw [hterms, ofTerms_terms]
  rw [← hform e, h, hform e']

/-- The words of all choices of summands are the products of the summands. -/
lemma map_choices (es : List Expr) :
    (choices es).map (fun c => FreeMonoid.ofList (merged .product c)) =
      products (es.map summands) := by
  induction es with
  | nil => rfl
  | cons e es ih =>
    rw [List.map_cons, products, ← ih, choices, summands]
    simp only [List.map_flatMap, List.map_map, List.flatMap_map, Function.comp_def, merged_cons,
      FreeMonoid.ofList_append]

/-- The summands of a distributed product are the products of the summands of its factors. -/
lemma summands_distribute {es : List Expr} (hne : es ≠ []) (h : ∀ e ∈ es, Distributed e) :
    (distribute es).summands = products (es.map summands) := by
  rw [summands, terms_distribute hne h, List.map_map, ← map_choices]
  refine List.map_congr_left fun c hc => ?_
  obtain ⟨hmerged, hfactors⟩ := merged_of_mem_choices hne h hc
  rw [Function.comp_apply, terms_ofTerms hmerged fun t ht => (hfactors t ht).2.2]

section Expand

variable {es : List Expr} (hne : es ≠ []) (h : ∀ e ∈ es, e.isEmptyFree = true)

include h in
/-- Expanded terms are distributed. -/
lemma distributed_map_expand : ∀ e ∈ es.map expand, Distributed e := by
  rw [List.forall_mem_map]
  exact fun e he => distributed_expand (h e he)

include hne h

/-- The summands of an expanded sum are those of its terms. -/
lemma summands_expand_sum :
    (ofTerms .sum es).expand.summands = es.flatMap fun e => e.expand.summands := by
  match es, hne with
  | [e], _ => rw [ofTerms, List.flatMap_singleton]
  | a :: b :: rest, _ =>
    have hterms := distributed_map_expand h
    have hne : (a :: b :: rest).map expand ≠ [] := List.cons_ne_nil _ _
    have hnosum : ∀ t ∈ merged .sum ((a :: b :: rest).map expand), t.isNary .sum = false := by
      intro t ht
      obtain ⟨e, he, ht⟩ := mem_merged.1 ht
      exact ((hterms e he).summand ht).2
    rw [ofTerms, expand_sum, (distributed_gather_merged hne hterms).1, summands,
      terms_ofTerms (merged_ne_nil .sum hne) hnosum, merged, List.map_flatMap, List.flatMap_map]
    rfl

/-- The summands of an expanded product are all products of one summand of each factor. -/
lemma summands_expand_product :
    (ofTerms .product es).expand.summands = products (es.map fun e => e.expand.summands) := by
  match es, hne with
  | [e], _ => rw [ofTerms, List.map_singleton, products_singleton]
  | a :: b :: rest, _ =>
    have hne : (a :: b :: rest).map expand ≠ [] := List.cons_ne_nil _ _
    rw [ofTerms, expand_product, summands_distribute hne (distributed_map_expand h), List.map_map]
    rfl

/-- Merging nested terms does not change what a node is expanded to. -/
theorem expand_ofTerms_merged (op : AssocOp) :
    (ofTerms op (merged op es)).expand = (ofTerms op es).expand := by
  have hmerged : ∀ t ∈ merged op es, t.isEmptyFree = true :=
    (hereditary_isEmptyFree.merged op es).2 h
  have hterms : ∀ {e}, e ∈ es → ∀ t ∈ e.terms op, t.isEmptyFree = true :=
    fun he => (hereditary_isEmptyFree.terms op _).2 (h _ he)
  apply eq_of_summands_eq
  cases op with
  | sum =>
    rw [summands_expand_sum (merged_ne_nil .sum hne) hmerged, summands_expand_sum hne h, merged,
      List.flatMap_assoc]
    refine List.flatMap_congr fun e he => ?_
    rw [← summands_expand_sum (terms_ne_nil .sum e) (hterms he), ofTerms_terms]
  | product =>
    rw [summands_expand_product (merged_ne_nil .product hne) hmerged,
      summands_expand_product hne h, merged, List.map_flatMap, products_flatMap]
    refine congrArg products (List.map_congr_left fun e he => ?_)
    rw [← summands_expand_product (terms_ne_nil .product e) (hterms he), ofTerms_terms]

end Expand

/-- Flattening does not change what an expression is expanded to. -/
theorem expand_flatten {e : Expr} (h : e.isEmptyFree = true) : e.flatten.expand = e.expand := by
  induction e using Expr.induction with
  | negation e ih => rw [flatten, expand, expand, ih ((hereditary_isEmptyFree.negation e).1 h)]
  | nary op a b rest ih =>
    have hterms := (hereditary_isEmptyFree.nary op a b rest).1 h
    have hflat : ∀ t ∈ (a :: b :: rest).map flatten, t.isEmptyFree = true := by
      rw [List.forall_mem_map]
      exact fun t ht => ((rewrites_flatten t).within allowsArithmetic_emptyFree
        ⟨hterms t ht, le_rfl⟩).1
    have hexpand : ((a :: b :: rest).map flatten).map expand = (a :: b :: rest).map expand := by
      rw [List.map_map]
      exact List.map_congr_left fun t ht => ih t ht (hterms t ht)
    have hne : (a :: b :: rest).map flatten ≠ [] := List.cons_ne_nil _ _
    calc (nary op a b rest).flatten.expand
        = (ofTerms op (merged op ((a :: b :: rest).map flatten))).expand := by
          rw [flatten, flattenAll_eq_map, ← List.map_cons, ← List.map_cons, gather_eq_ofTerms]
          exact fun t ht => isEmpty_of_isEmptyFree
            ((hereditary_isEmptyFree.merged op _).2 hflat t ht)
      _ = (ofTerms op ((a :: b :: rest).map flatten)).expand := expand_ofTerms_merged hne hflat op
      _ = (nary op a b rest).expand := by
          cases op with
          | sum => rw [expand_sum, ← hexpand]; exact expand_sum _ _ _
          | product => rw [expand_product, ← hexpand]; exact expand_product _ _ _
  | division l r hl hr =>
    obtain ⟨hleft, hright⟩ := isEmptyFree_division_iff.1 h
    rw [flatten, expand, expand, hl hleft, hr hright]
  | parentheses e ih => exact ih (isEmptyFree_parentheses_iff.1 h)
  | _ => rfl

/-! ### Expanded expressions -/

/-- Expanding leads to a sum of products at every depth, which stays as it is when it is expanded
again, and it does not matter whether the expression is flattened first. -/
theorem expand_stable {e : Expr} (h : e.isEmptyFree = true) :
    (∀ t ∈ e.expand.parts, t.DistributedNode) ∧ e.expand.expand = e.expand ∧
      e.flatten.expand = e.expand :=
  ⟨distributed_expand h, (distributed_expand h).expand_eq, expand_flatten h⟩

/-- For instance a product with a product in parentheses, a sign before it, and a quotient with a
sign in it among its factors. -/
theorem expand_stable_quotient :
    (product (var "x") (parentheses (negation (product (sum (var "y") (var "z") [])
      (division (negation (var "x")) (integer 2)) []))) []).isEmptyFree = true ∧
      (product (integer (-1)) (var "x") []).DistributedNode ∧
      (product (var "x") (parentheses (negation (product (sum (var "y") (var "z") [])
        (division (negation (var "x")) (integer 2)) []))) []).flatten.expand =
        sum (product (var "x") (integer (-1))
            [var "y", division (product (integer (-1)) (var "x") []) (integer 2)])
          (product (var "x") (integer (-1))
            [var "z", division (product (integer (-1)) (var "x") []) (integer 2)]) [] := by
  obtain ⟨hnodes, -, hflat⟩ := expand_stable (e := product (var "x") (parentheses (negation
    (product (sum (var "y") (var "z") []) (division (negation (var "x")) (integer 2)) []))) []) rfl
  exact ⟨rfl, hnodes _ (by simp [expand, expandAll, distribute, choices, merged, terms, gather,
    ofTerms, isEmpty, parts, partsAll]), hflat⟩

end TermAlgebra.Expr
