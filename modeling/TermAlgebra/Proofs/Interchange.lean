import Mathlib.Algebra.FreeMonoid.Basic
import Mathlib.Tactic
import TermAlgebra.Proofs.Distributing
import TermAlgebra.Proofs.FoldingLaws
import TermAlgebra.Proofs.Monomials

/-!
# Interchangeable polynomials

Polynomials that a step of simplification cannot tell apart.

A step looks at the folded form of a polynomial, and at what becomes of it when it has been
expanded.  Of the monomials of the expansion only their signatures matter: the integer that the
constants of a monomial come to, and its variables from left to right.  The signatures of a node are
made of those of its terms, in a sum one after the other (`expansion_ofTerms_sum`) and in a product
by multiplying them out (`expansion_ofTerms_product`).  Polynomials are interchangeable if they have
the same signatures and the same folded form (`Interchangeable`), and so are two nodes if their
terms are (`Interchangeable.ofTerms`).  A sign may be written as a factor minus one
(`interchangeable_sign`), a node may be taken apart within another one
(`interchangeable_nested`), and two integers may be multiplied (`interchangeable_integers`).
-/

namespace TermAlgebra.Expr

/-! ### Signatures -/

/-- The product of the integers among some expressions, and the factors of all of them. -/
def contents (es : List Expr) : ℤ × FreeMonoid Expr :=
  ((es.filterMap integer?).prod, FreeMonoid.ofList (factorsAll es))

/-- The integer that the constants of a monomial come to, and its variables from left to right. -/
def signature (t : Expr) : ℤ × FreeMonoid Expr :=
  contents (t.terms .product)

/-- The contents of two lists in a row are multiplied. -/
lemma contents_append (es fs : List Expr) : contents (es ++ fs) = contents es * contents fs := by
  rw [contents, List.filterMap_append, List.prod_append, factorsAll_append,
    FreeMonoid.ofList_append]
  rfl

/-- The contents of the factors of a word, as a homomorphism. -/
def contentsHom : FreeMonoid Expr →* ℤ × FreeMonoid Expr where
  toFun w := contents w.toList
  map_one' := rfl
  map_mul' v w := contents_append v.toList w.toList

/-- The variables of an expression can be told from its signature. -/
lemma signature_snd (t : Expr) : (signature t).2 = FreeMonoid.ofList t.factors := by
  rw [signature, contents, factorsAll_terms]

/-- The signature of a product of what are no products themselves. -/
lemma signature_ofTerms {es : List Expr} (hne : es ≠ [])
    (h : ∀ e ∈ es, e.isNary .product = false) : signature (ofTerms .product es) = contents es := by
  rw [signature, terms_ofTerms hne h]

/-! ### Expansions -/

/-- The signatures of the monomials of an expanded expression. -/
def expansion (e : Expr) : List (ℤ × FreeMonoid Expr) :=
  (e.expand.terms .sum).map signature

/-- The expansion is read off the summands of the expanded expression. -/
lemma expansion_eq_map (e : Expr) : expansion e = e.expand.summands.map contentsHom := by
  rw [summands, List.map_map]
  rfl

/-- An integer is expanded to itself. -/
lemma expansion_integer (n : ℤ) : expansion (integer n) = [(n, 1)] := by
  simp [expansion, expand, terms, signature, contents, factors, integer?]

section Polynomials

variable {es : List Expr} (hne : es ≠ []) (h : ∀ e ∈ es, e.isPolynomial = true)

include hne h

/-- The expansion of a sum is that of its terms, one after the other. -/
lemma expansion_ofTerms_sum : expansion (ofTerms .sum es) = (es.map expansion).flatten := by
  have hfree := fun e he => isEmptyFree_of_isExact (isExact_of_isPolynomial (h e he))
  rw [expansion_eq_map, summands_expand_sum hne hfree, List.map_flatMap, List.flatMap_def]
  simp only [← expansion_eq_map]

/-- The expansion of a product is that of its factors, multiplied out. -/
lemma expansion_ofTerms_product :
    expansion (ofTerms .product es) = products (es.map expansion) := by
  have hfree := fun e he => isEmptyFree_of_isExact (isExact_of_isPolynomial (h e he))
  rw [expansion_eq_map, summands_expand_product hne hfree, map_products, List.map_map]
  simp only [Function.comp_def, ← expansion_eq_map]

end Polynomials

/-! ### Interchangeable polynomials -/

/-- Whether two polynomials have the same folded form and the same expansion. -/
structure Interchangeable (e e' : Expr) : Prop where
  left : e.isPolynomial = true
  right : e'.isPolynomial = true
  foldedForm : e.foldedForm = e'.foldedForm
  expansion : e.expansion = e'.expansion

/-- A polynomial is interchangeable with itself. -/
lemma interchangeable_self {e : Expr} (h : e.isPolynomial = true) : Interchangeable e e :=
  ⟨h, h, rfl, rfl⟩

namespace Interchangeable

variable {a b c : Expr}

/-- Being interchangeable is symmetric. -/
lemma symm (h : Interchangeable a b) : Interchangeable b a :=
  ⟨h.right, h.left, h.foldedForm.symm, h.expansion.symm⟩

/-- Being interchangeable is transitive. -/
lemma trans (hab : Interchangeable a b) (hbc : Interchangeable b c) : Interchangeable a c :=
  ⟨hab.left, hbc.right, hab.foldedForm.trans hbc.foldedForm, hab.expansion.trans hbc.expansion⟩

/-- Interchangeable polynomials are exact expressions with the same folded form. -/
lemma sameForm (h : Interchangeable a b) : SameForm a b :=
  ⟨isExact_of_isPolynomial h.left, isExact_of_isPolynomial h.right, h.foldedForm⟩

/-- Nodes are interchangeable if their terms are. -/
lemma ofTerms (op : AssocOp) {es es' : List Expr} (hne : es ≠ [])
    (h : List.Forall₂ Interchangeable es es') :
    Interchangeable (ofTerms op es) (ofTerms op es') := by
  have hne' : es' ≠ [] := ne_nil_of_forall₂ h hne
  have hleft := forall_mem_left_of_forall₂ h fun _ _ hee' => hee'.left
  have hright := forall_mem_right_of_forall₂ h fun _ _ hee' => hee'.right
  have hforms := SameForm.ofTerms op hne (h.imp fun _ _ hee' => hee'.sameForm)
  have hexpansions : es.map Expr.expansion = es'.map Expr.expansion :=
    map_eq_of_forall₂ (fun hee' => hee'.expansion) h
  have hQ := hereditary_isPolynomial
  refine ⟨(hQ.ofTerms op hne).2 hleft, (hQ.ofTerms op hne').2 hright, hforms.foldedForm, ?_⟩
  cases op with
  | sum => rw [expansion_ofTerms_sum hne hleft, expansion_ofTerms_sum hne' hright, hexpansions]
  | product =>
    rw [expansion_ofTerms_product hne hleft, expansion_ofTerms_product hne' hright, hexpansions]

end Interchangeable

/-! ### Laws -/

/-- Parentheses do not matter. -/
lemma interchangeable_parentheses {e : Expr} (h : e.isPolynomial = true) :
    Interchangeable (parentheses e) e :=
  ⟨isPolynomial_parentheses_iff.2 h, h, foldedForm_parentheses (isExact_of_isPolynomial h), rfl⟩

/-- A sign may be written as a factor minus one. -/
lemma interchangeable_sign {e : Expr} (h : e.isPolynomial = true) :
    Interchangeable (negation e) (ofTerms .product [integer (-1), e]) := by
  have hQ := hereditary_isPolynomial
  refine ⟨(hQ.negation e).2 h, (hQ.ofTerms .product (List.cons_ne_nil _ _)).2 ?_, ?_, rfl⟩
  · rw [List.forall_mem_cons, List.forall_mem_singleton]
    exact ⟨rfl, h⟩
  · exact foldedForm_negation_eq_product (isExact_of_isPolynomial h)

/-- A node among the terms of one of the same operation may be taken apart. -/
lemma interchangeable_nested (op : AssocOp) (before after : List Expr) {es : List Expr}
    (hne : es ≠ []) (h : ∀ e ∈ before ++ (es ++ after), e.isPolynomial = true) :
    Interchangeable (ofTerms op (before ++ ofTerms op es :: after))
      (ofTerms op (before ++ (es ++ after))) := by
  have hQ := hereditary_isPolynomial
  have hparts := h
  simp only [List.forall_mem_append] at hparts
  obtain ⟨hbefore, hes, hafter⟩ := hparts
  have hnested : ∀ e ∈ before ++ ofTerms op es :: after, e.isPolynomial = true := by
    rw [List.forall_mem_append, List.forall_mem_cons]
    exact ⟨hbefore, (hQ.ofTerms op hne).2 hes, hafter⟩
  have hnestedne : before ++ ofTerms op es :: after ≠ [] := by simp
  have hflatne : before ++ (es ++ after) ≠ [] := by simp [hne]
  refine ⟨(hQ.ofTerms op hnestedne).2 hnested, (hQ.ofTerms op hflatne).2 h,
    foldedForm_ofTerms_nested op before after hne fun e he => isExact_of_isPolynomial (h e he), ?_⟩
  cases op with
  | sum =>
    rw [expansion_ofTerms_sum hnestedne hnested, expansion_ofTerms_sum hflatne h]
    simp only [List.map_append, List.map_cons, List.flatten_append, List.flatten_cons,
      expansion_ofTerms_sum hne hes]
  | product =>
    rw [expansion_ofTerms_product hnestedne hnested, expansion_ofTerms_product hflatne h]
    simp only [List.map_append, List.map_cons, expansion_ofTerms_product hne hes]
    exact products_nested _ _ _

/-- The product of two integers may be taken first. -/
lemma products_integers (n m : ℤ) (xss : List (List (ℤ × FreeMonoid Expr))) :
    products ([(n * m, 1)] :: xss) = products ([(n, 1)] :: [(m, 1)] :: xss) := by
  have hproduct : products [[(n, (1 : FreeMonoid Expr))], [(m, 1)]] = [(n * m, 1)] := by
    simp [products]
  have hnested := products_nested [] [[(n, (1 : FreeMonoid Expr))], [(m, 1)]] xss
  rwa [hproduct] at hnested

/-- Two integers at the front of a product may be multiplied. -/
lemma interchangeable_integers (n m : ℤ) {es : List Expr} (h : ∀ e ∈ es, e.isPolynomial = true) :
    Interchangeable (ofTerms .product (integer n :: integer m :: es))
      (ofTerms .product (integer (n * m) :: es)) := by
  have hQ := hereditary_isPolynomial
  have hone : ∀ k, ∀ e ∈ integer k :: es, e.isPolynomial = true :=
    fun k => List.forall_mem_cons.2 ⟨rfl, h⟩
  have htwo : ∀ e ∈ integer n :: integer m :: es, e.isPolynomial = true :=
    List.forall_mem_cons.2 ⟨rfl, hone m⟩
  have hforms := foldedForm_ofTerms_integers .product n m fun e he =>
    isExact_of_isPolynomial (h e he)
  have htotal : AssocOp.total .product [n, m] = n * m := by simp
  refine ⟨(hQ.ofTerms .product (List.cons_ne_nil _ _)).2 htwo,
    (hQ.ofTerms .product (List.cons_ne_nil _ _)).2 (hone (n * m)), htotal ▸ hforms, ?_⟩
  rw [expansion_ofTerms_product (List.cons_ne_nil _ _) htwo,
    expansion_ofTerms_product (List.cons_ne_nil _ _) (hone (n * m))]
  simp only [List.map_cons, expansion_integer]
  exact (products_integers n m _).symm

/-- A sign before a product is a factor minus one of it. -/
lemma interchangeable_negation_product {es : List Expr} (hne : es ≠ [])
    (h : ∀ e ∈ es, e.isPolynomial = true) :
    Interchangeable (negation (ofTerms .product es)) (ofTerms .product (integer (-1) :: es)) := by
  have hall : ∀ e ∈ integer (-1) :: es, e.isPolynomial = true := List.forall_mem_cons.2 ⟨rfl, h⟩
  have hnested := interchangeable_nested .product [integer (-1)] [] hne (by rwa [List.append_nil])
  rw [List.append_nil] at hnested
  exact (interchangeable_sign ((hereditary_isPolynomial.ofTerms .product hne).2 h)).trans hnested

/-- So is a sign before the first factor. -/
lemma interchangeable_negation_factor {e : Expr} {es : List Expr}
    (h : ∀ t ∈ e :: es, t.isPolynomial = true) :
    Interchangeable (ofTerms .product (negation e :: es))
      (ofTerms .product (integer (-1) :: e :: es)) := by
  obtain ⟨he, hes⟩ := List.forall_mem_cons.1 h
  have hrest : List.Forall₂ Interchangeable es es :=
    List.forall₂_same.2 fun t ht => interchangeable_self (hes t ht)
  have hfactor := Interchangeable.ofTerms .product (List.cons_ne_nil _ _)
    (.cons (interchangeable_sign he) hrest)
  refine hfactor.trans (interchangeable_nested .product [] es (List.cons_ne_nil _ _) ?_)
  exact List.forall_mem_cons.2 ⟨rfl, h⟩

/-- The sign of a negative integer is a factor minus one. -/
lemma interchangeable_negation_integer (n : ℤ) :
    Interchangeable (negation (integer n)) (integer (-n)) := by
  have hintegers : Interchangeable (ofTerms .product [integer (-1), integer n])
      (ofTerms .product [integer (-1 * n)]) := interchangeable_integers (-1) n nofun
  rw [neg_one_mul] at hintegers
  exact (interchangeable_sign rfl).trans hintegers

/-- Negations are interchangeable if their operands are. -/
lemma Interchangeable.negation {e e' : Expr} (h : Interchangeable e e') :
    Interchangeable (negation e) (negation e') := by
  have hproducts := Interchangeable.ofTerms .product (List.cons_ne_nil _ _)
    (.cons (interchangeable_self (e := integer (-1)) rfl) (.cons h .nil))
  exact (interchangeable_sign h.left).trans (hproducts.trans (interchangeable_sign h.right).symm)

end TermAlgebra.Expr
