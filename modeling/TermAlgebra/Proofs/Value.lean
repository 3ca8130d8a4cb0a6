import Mathlib.Tactic
import Mathlib.Algebra.BigOperators.Group.List.Basic
import Mathlib.Algebra.BigOperators.Ring.List
import TermAlgebra.Proofs.Hereditary

/-!
# Exact values

The exact value of an expression under an assignment of rational numbers to its variables.

`Expr.value` is this value, and `Expr.Defined` says that there is one: no decimal and no empty node
occurs, and the right side of no division is zero.  The value of a node of an associative operation
is the `AssocOp.total` of the values of its terms, and rearranging terms does not change it
(`value_gather`, `total_merged`, `value_distribute`).

An expression refines another one (`Refines`) if it has the value of the other one wherever that one
has a value.

What follows from the way in which values are put together is said of every such quantity
(`Expr.Interprets`).
-/

namespace TermAlgebra

/-! ### Sums and products of lists -/

/-- The result of an operation on all items of a list. -/
def AssocOp.total {R : Type} [CommSemiring R] : AssocOp → List R → R
  | sum => List.sum
  | product => List.prod

namespace AssocOp

variable {R : Type} [CommSemiring R] (op : AssocOp)

@[simp] lemma total_sum (xs : List R) : AssocOp.sum.total xs = xs.sum := rfl

@[simp] lemma total_product (xs : List R) : AssocOp.product.total xs = xs.prod := rfl

/-- A single item is its own result. -/
@[simp] lemma total_singleton (x : R) : op.total [x] = x := by
  cases op <;> simp

/-- The first item is combined with the result on the others. -/
lemma total_cons (x : R) (xs : List R) : op.total (x :: xs) = op.total [x, op.total xs] := by
  cases op <;> simp

/-- The results on two lists are combined for the two lists in a row. -/
lemma total_append (xs ys : List R) :
    op.total (xs ++ ys) = op.total [op.total xs, op.total ys] := by
  cases op <;> simp

/-- The order of the items does not matter. -/
lemma total_perm {xs ys : List R} (h : xs.Perm ys) : op.total xs = op.total ys := by
  cases op
  · exact h.sum_eq
  · exact h.prod_eq

/-- A homomorphism maps the result on some items to the result on their images. -/
lemma map_total {S : Type} [CommSemiring S] (f : R →+* S) (xs : List R) :
    f (op.total xs) = op.total (xs.map f) := by
  cases op
  · exact map_list_sum f xs
  · exact map_list_prod f xs

end AssocOp

namespace Expr

/-! ### Values -/

mutual

/-- The exact value of an expression, where a quotient by zero counts as zero. -/
def value (ρ : String → ℚ) : Expr → ℚ
  | empty => 0
  | integer n => n
  | decimal _ => 0
  | var s => ρ s
  | negation e => -value ρ e
  | nary op a b rest => op.total (value ρ a :: value ρ b :: values ρ rest)
  | division l r => value ρ l / value ρ r
  | parentheses e => value ρ e

/-- The exact values of all the expressions. -/
def values (ρ : String → ℚ) : List Expr → List ℚ
  | [] => []
  | e :: es => value ρ e :: values ρ es

end

mutual

/-- Whether an expression has an exact value: it has no decimal and no empty node, and the right
side of no division has the value zero. -/
def Defined (ρ : String → ℚ) : Expr → Prop
  | empty => False
  | integer _ => True
  | decimal _ => False
  | var _ => True
  | negation e => Defined ρ e
  | nary _ a b rest => Defined ρ a ∧ Defined ρ b ∧ AllDefined ρ rest
  | division l r => Defined ρ l ∧ Defined ρ r ∧ value ρ r ≠ 0
  | parentheses e => Defined ρ e

/-- Whether all the expressions have an exact value. -/
def AllDefined (ρ : String → ℚ) : List Expr → Prop
  | [] => True
  | e :: es => Defined ρ e ∧ AllDefined ρ es

end

variable (ρ : String → ℚ)

/-- The values are taken item by item. -/
lemma values_eq_map (es : List Expr) : values ρ es = es.map (value ρ) := by
  induction es with
  | nil => rfl
  | cons e es ih => rw [values, ih, List.map_cons]

/-- The value of a node of an operation is the result of the operation on its terms. -/
lemma value_nary (op : AssocOp) (a b : Expr) (rest : List Expr) :
    (nary op a b rest).value ρ = op.total ((a :: b :: rest).map (value ρ)) := by
  rw [value, values_eq_map, List.map_cons, List.map_cons]

/-! ### Interpretations -/

/-- Merging operands does not change the result of the operation, if that on the terms of each is
what the operand stands for. -/
lemma total_map_merged {R : Type} [CommSemiring R] {op : AssocOp} {f : Expr → R} {es : List Expr}
    (h : ∀ e ∈ es, op.total ((e.terms op).map f) = f e) :
    op.total ((merged op es).map f) = op.total (es.map f) := by
  induction es with
  | nil => rfl
  | cons e es ih =>
    obtain ⟨he, hes⟩ := List.forall_mem_cons.1 h
    rw [merged, List.flatMap_cons, List.map_append, AssocOp.total_append, he, ← merged, ih hes,
      List.map_cons, ← AssocOp.total_cons]

/-- The products of all choices add up to the product of the sums, whatever the terms stand for. -/
lemma sum_choices {R : Type} [CommSemiring R] (g : Expr → R) (fs : List Expr) :
    ((choices fs).map fun c => (c.map g).prod).sum =
      (fs.map fun f => ((f.terms .sum).map g).sum).prod := by
  induction fs with
  | nil => simp [choices]
  | cons f fs ih =>
    rw [List.map_cons, List.prod_cons, ← ih, choices]
    induction choices fs with
    | nil => simp
    | cons c cs ihc =>
      rw [List.flatMap_cons, List.map_append, List.sum_append, ihc, List.map_cons, List.sum_cons,
        mul_add, List.map_map]
      congr 1
      simp only [Function.comp_def, List.map_cons, List.prod_cons]
      exact List.sum_map_mul_right ..

/-- Whether a quantity of expressions is put together from those of their parts: a negation
multiplies it by the given sign, and a node of an operation has the result of the operation on its
terms. -/
structure Interprets {R : Type} [CommSemiring R] (sign : R) (g : Expr → R) : Prop where
  sign_mul_sign : sign * sign = 1
  empty : g .empty = 0
  one : g (.integer 1) = 1
  negation (e : Expr) : g (.negation e) = sign * g e
  nary (op : AssocOp) (a b : Expr) (rest : List Expr) :
    g (.nary op a b rest) = op.total ((a :: b :: rest).map g)

/-- Values are put together in this way. -/
lemma interprets_value : Interprets (-1) (value ρ) where
  sign_mul_sign := by norm_num
  empty := rfl
  one := by norm_num [value]
  negation e := by rw [value, neg_one_mul]
  nary := value_nary ρ

namespace Interprets

variable {R : Type} [CommSemiring R] {sign : R} {g : Expr → R} (hg : Interprets sign g)

include hg

/-- The quantity of a node built of a list of terms. -/
lemma ofTerms (op : AssocOp) {es : List Expr} (hne : es ≠ []) :
    g (Expr.ofTerms op es) = op.total (es.map g) := by
  match es, hne with
  | [e], _ => rw [Expr.ofTerms, List.map_singleton, AssocOp.total_singleton]
  | a :: b :: rest, _ => exact hg.nary op a b rest

/-- The quantity of an expression is the result of an operation on its terms. -/
lemma terms (op : AssocOp) (e : Expr) : op.total ((e.terms op).map g) = g e := by
  rw [← hg.ofTerms op (terms_ne_nil op e), ofTerms_terms]

/-- Merging operands does not change the result of the operation on them. -/
lemma merged (op : AssocOp) (es : List Expr) :
    op.total ((Expr.merged op es).map g) = op.total (es.map g) :=
  total_map_merged fun e _ => hg.terms op e

/-- Gathering exact terms is their sum or product. -/
lemma gather (op : AssocOp) {es : List Expr} (hne : es ≠ []) (h : ∀ e ∈ es, e.isExact = true) :
    g (Expr.gather op es) = op.total (es.map g) := by
  rw [gather_of_isExact op h, hg.ofTerms op hne]

/-- Distributing an exact product does not change its quantity. -/
lemma distribute {es : List Expr} (hne : es ≠ []) (h : ∀ e ∈ es, e.isExact = true) :
    g (Expr.distribute es) = (es.map g).prod := by
  have hchoice : ∀ c ∈ choices es, c ≠ [] ∧ ∀ t ∈ c, t.isExact = true := by
    intro c hc
    refine ⟨ne_nil_of_mem_choices hne hc, fun t ht => ?_⟩
    obtain ⟨f, hf, htf⟩ := exists_of_mem_choices hc ht
    exact (hereditary_isExact.terms .sum f).2 (h f hf) t htf
  have hproduct : ∀ c ∈ choices es,
      (Expr.gather .product (Expr.merged .product c)).isExact = true ∧
        g (Expr.gather .product (Expr.merged .product c)) = (c.map g).prod := by
    intro c hc
    obtain ⟨hc, hexact⟩ := hchoice c hc
    have hmerged := (hereditary_isExact.merged .product c).2 hexact
    refine ⟨hereditary_isExact.gather .product (merged_ne_nil .product hc) hmerged, ?_⟩
    rw [hg.gather .product (merged_ne_nil .product hc) hmerged, hg.merged, AssocOp.total_product]
  have hsums : es.map g = es.map fun e => ((e.terms .sum).map g).sum :=
    List.map_congr_left fun e _ => (hg.terms .sum e).symm
  rw [Expr.distribute, hg.gather .sum (by simpa using choices_ne_nil es), AssocOp.total_sum,
    List.map_map, hsums, ← sum_choices]
  · exact congrArg List.sum (List.map_congr_left fun c hc => (hproduct c hc).2)
  · intro t ht
    obtain ⟨c, hc, rfl⟩ := List.mem_map.1 ht
    exact (hproduct c hc).1

end Interprets

/-- The value of a node built of a list of terms. -/
lemma value_ofTerms (op : AssocOp) {es : List Expr} (hne : es ≠ []) :
    (ofTerms op es).value ρ = op.total (es.map (value ρ)) :=
  (interprets_value ρ).ofTerms op hne

/-- The value of an expression is the result of an operation on its terms. -/
lemma total_terms (op : AssocOp) (e : Expr) :
    op.total ((e.terms op).map (value ρ)) = e.value ρ :=
  (interprets_value ρ).terms op e

/-- Merging operands does not change the value of the operation on them. -/
lemma total_merged (op : AssocOp) (es : List Expr) :
    op.total ((merged op es).map (value ρ)) = op.total (es.map (value ρ)) :=
  (interprets_value ρ).merged op es

/-! ### Defined values -/

/-- All the expressions have a value if each of them does. -/
lemma allDefined_iff {es : List Expr} : AllDefined ρ es ↔ ∀ e ∈ es, e.Defined ρ := by
  induction es with
  | nil => simp [AllDefined]
  | cons e es ih => rw [AllDefined, ih, List.forall_mem_cons]

/-- Having a value is hereditary. -/
lemma hereditary_defined : Hereditary (Defined ρ) where
  integer _ := trivial
  decimal _ _ h := h
  negation _ := Iff.rfl
  nary op a b rest := by
    rw [Defined, allDefined_iff, List.forall_mem_cons, List.forall_mem_cons]

variable {ρ}

/-- What has a value is exact. -/
lemma isExact_of_defined {e : Expr} (h : e.Defined ρ) : e.isExact = true := by
  induction e using Expr.induction with
  | empty => exact h.elim
  | integer n => rfl
  | decimal d => exact h.elim
  | var s => rfl
  | negation e ih => exact (hereditary_isExact.negation e).2 (ih h)
  | nary op a b rest ih =>
    rw [(hereditary_defined ρ).nary] at h
    rw [hereditary_isExact.nary]
    exact fun t ht => ih t ht (h t ht)
  | division l r hl hr => exact isExact_division_iff.2 ⟨hl h.1, hr h.2.1⟩
  | parentheses e ih => exact isExact_parentheses_iff.2 (ih h)

/-- Gathering terms that have values is their sum or product. -/
lemma value_gather (op : AssocOp) {es : List Expr} (hne : es ≠ []) (h : ∀ e ∈ es, e.Defined ρ) :
    (gather op es).value ρ = op.total (es.map (value ρ)) :=
  (interprets_value ρ).gather op hne fun e he => isExact_of_defined (h e he)

/-- A distributed product has the value of the product. -/
lemma value_distribute {es : List Expr} (hne : es ≠ []) (h : ∀ e ∈ es, e.Defined ρ) :
    (distribute es).value ρ = (es.map (value ρ)).prod :=
  (interprets_value ρ).distribute hne fun e he => isExact_of_defined (h e he)

/-! ### Refinement -/

/-- One expression refines another one if it has the value of the other one wherever that one has a
value. -/
def Refines (ρ : String → ℚ) (e e' : Expr) : Prop :=
  e.Defined ρ → e'.Defined ρ ∧ e'.value ρ = e.value ρ

/-- Every expression refines itself. -/
lemma Refines.refl (e : Expr) : Refines ρ e e :=
  fun h => ⟨h, rfl⟩

/-- Refinement is transitive. -/
lemma Refines.trans {a b c : Expr} (hab : Refines ρ a b) (hbc : Refines ρ b c) :
    Refines ρ a c := by
  intro ha
  obtain ⟨hb, hvb⟩ := hab ha
  obtain ⟨hc, hvc⟩ := hbc hb
  exact ⟨hc, hvc.trans hvb⟩

end Expr

end TermAlgebra
