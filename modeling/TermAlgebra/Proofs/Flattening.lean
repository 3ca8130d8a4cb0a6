import Mathlib.Tactic
import TermAlgebra.Proofs.NormalForm

/-!
# Flattened trees

The form that flattening gives to a tree, whatever the tree is.

In a flattened tree there are no parentheses, and no term of a sum or product is empty or a node of
the same operation (`Flattened`).  A part may become such a term only when it has been flattened
itself: parentheses are dropped around it, or all its terms but one are empty.  So the terms are
merged after they have been flattened (`flattened_flatten`), and nothing is left to be done by
flattening once more (`Flattened.flatten_eq`).

A walk through a tree from left to right meets the same constants, variables, signs and divisions
after flattening (`Overlooks.walk_flatten`).
-/

namespace TermAlgebra.Expr

/-! ### The form of a flattened tree -/

/-- Whether the topmost node is no pair of parentheses and has no term that is empty or a node of
its own operation. -/
def FlattenedNode : Expr → Prop
  | parentheses _ => False
  | nary op a b rest => ∀ t ∈ a :: b :: rest, t.isEmpty = false ∧ t.isNary op = false
  | _ => True

/-- Whether all nodes of an expression are of this kind. -/
def Flattened (e : Expr) : Prop :=
  ∀ t ∈ e.parts, t.FlattenedNode

lemma flattened_negation_iff {e : Expr} : (negation e).Flattened ↔ e.Flattened := by
  rw [Flattened, parts, List.forall_mem_cons]
  exact and_iff_right trivial

lemma flattened_division_iff {l r : Expr} :
    (division l r).Flattened ↔ l.Flattened ∧ r.Flattened := by
  rw [Flattened, parts, List.forall_mem_cons, List.forall_mem_append]
  exact and_iff_right trivial

lemma flattened_nary_iff {op : AssocOp} {a b : Expr} {rest : List Expr} :
    (nary op a b rest).Flattened ↔
      ∀ t ∈ a :: b :: rest, t.Flattened ∧ t.isEmpty = false ∧ t.isNary op = false := by
  unfold Flattened
  simp only [mem_parts_nary, forall_eq_or_imp, FlattenedNode]
  constructor
  · rintro ⟨hnode, hparts⟩ t ht
    exact ⟨fun u hu => hparts u ⟨t, ht, hu⟩, hnode t ht⟩
  · intro h
    refine ⟨fun t ht => (h t ht).2, ?_⟩
    rintro u ⟨t, ht, hu⟩
    exact (h t ht).1 u hu

/-- The topmost node of a flattened expression. -/
lemma Flattened.node {e : Expr} (h : e.Flattened) : e.FlattenedNode := by
  refine h e ?_
  cases e <;> simp [parts]

/-- The terms of a flattened operand are flattened and no nodes of the operation. -/
lemma Flattened.terms {e : Expr} (h : e.Flattened) (op : AssocOp) :
    ∀ t ∈ e.terms op, t.Flattened ∧ t.isNary op = false := by
  rcases eq_nary_or_not_isNary op e with ⟨a, b, rest, rfl⟩ | hnot
  · rw [terms_nary]
    exact fun t ht => ⟨(flattened_nary_iff.1 h t ht).1, (flattened_nary_iff.1 h t ht).2.2⟩
  · rw [terms_of_not_isNary hnot, List.forall_mem_singleton]
    exact ⟨h, hnot⟩

/-- Terms that are flattened, not empty and no nodes of the operation make a flattened
expression. -/
lemma flattened_ofTerms {op : AssocOp} {es : List Expr}
    (h : ∀ t ∈ es, t.Flattened ∧ t.isEmpty = false ∧ t.isNary op = false) :
    (ofTerms op es).Flattened := by
  match es with
  | [] => exact fun t ht => List.mem_singleton.1 ht ▸ trivial
  | [e] => exact (h e List.mem_cons_self).1
  | a :: b :: rest => exact flattened_nary_iff.2 h

/-- When terms are gathered, it does not matter that some are empty. -/
lemma flattened_gather {op : AssocOp} {es : List Expr}
    (h : ∀ t ∈ es, t.Flattened ∧ t.isNary op = false) : (gather op es).Flattened := by
  refine flattened_ofTerms fun t ht => ?_
  obtain ⟨hmem, hnonempty⟩ := List.mem_filter.1 ht
  rw [Bool.not_eq_true'] at hnonempty
  exact ⟨(h t hmem).1, hnonempty, (h t hmem).2⟩

/-- Flattening gives a flattened expression. -/
lemma flattened_flatten (e : Expr) : e.flatten.Flattened := by
  induction e using Expr.induction with
  | negation e ih => exact flattened_negation_iff.2 ih
  | nary op a b rest ih =>
    rw [flatten, flattenAll_eq_map, ← List.map_cons, ← List.map_cons]
    refine flattened_gather fun t ht => ?_
    obtain ⟨u, hu, htu⟩ := mem_merged.1 ht
    obtain ⟨v, hv, rfl⟩ := List.mem_map.1 hu
    exact (ih v hv).terms op t htu
  | division l r hl hr => exact flattened_division_iff.2 ⟨hl, hr⟩
  | parentheses e ih => exact ih
  | _ => exact fun t ht => List.mem_singleton.1 ht ▸ trivial

/-- Flattening leaves a flattened expression as it is. -/
lemma Flattened.flatten_eq {e : Expr} (h : e.Flattened) : e.flatten = e := by
  induction e using Expr.induction with
  | negation e ih => rw [flatten, ih (flattened_negation_iff.1 h)]
  | nary op a b rest ih =>
    have hterms := flattened_nary_iff.1 h
    have hsame : (a :: b :: rest).map flatten = a :: b :: rest := by
      rw [List.map_congr_left fun t ht => ih t ht (hterms t ht).1, List.map_id']
    rw [flatten, flattenAll_eq_map, ← List.map_cons, ← List.map_cons, hsame,
      merged_eq_self fun t ht => (hterms t ht).2.2,
      gather_eq_ofTerms op fun t ht => (hterms t ht).2.1]
    rfl
  | division l r hl hr =>
    have hsides := flattened_division_iff.1 h
    rw [flatten, hl hsides.1, hr hsides.2]
  | parentheses e _ => exact absurd h.node not_false
  | _ => rfl

/-! ### Walks through a tree -/

section Walk

variable {α : Type} {note : Expr → List α}

/-- What is noted on a walk through an expression from left to right, each node before its parts. -/
def walk (note : Expr → List α) (e : Expr) : List α :=
  e.parts.flatMap note

lemma walk_negation (e : Expr) :
    walk note (negation e) = note (negation e) ++ walk note e :=
  List.flatMap_cons

lemma walk_division (l r : Expr) :
    walk note (division l r) = note (division l r) ++ (walk note l ++ walk note r) := by
  rw [walk, parts, List.flatMap_cons, List.flatMap_append, walk, walk]

lemma walk_parentheses (e : Expr) :
    walk note (parentheses e) = note (parentheses e) ++ walk note e :=
  List.flatMap_cons

lemma walk_nary (op : AssocOp) (a b : Expr) (rest : List Expr) :
    walk note (nary op a b rest) =
      note (nary op a b rest) ++ (a :: b :: rest).flatMap (walk note) := by
  rw [walk, parts, partsAll_eq_flatMap, ← List.flatMap_cons, ← List.flatMap_cons,
    List.flatMap_cons, List.flatMap_assoc]
  rfl

/-- Whether nothing is noted of sums and products, of parentheses and of what is empty, and of signs
and divisions only that they are there. -/
structure Overlooks (note : Expr → List α) : Prop where
  empty : note empty = []
  nary (op : AssocOp) (a b : Expr) (rest : List Expr) : note (nary op a b rest) = []
  parentheses (e : Expr) : note (parentheses e) = []
  negation (e e' : Expr) : note (negation e) = note (negation e')
  division (l r l' r' : Expr) : note (division l r) = note (division l' r')

namespace Overlooks

variable (h : Overlooks note)

include h

/-- Nothing is met in an empty expression. -/
lemma walk_empty : walk note Expr.empty = [] :=
  (List.flatMap_singleton note Expr.empty).trans h.empty

/-- A walk through an operand is one through its terms. -/
lemma flatMap_walk_terms (op : AssocOp) (e : Expr) :
    (e.terms op).flatMap (walk note) = walk note e := by
  rcases eq_nary_or_not_isNary op e with ⟨a, b, rest, rfl⟩ | hnot
  · rw [terms_nary, walk_nary, h.nary, List.nil_append]
  · rw [terms_of_not_isNary hnot, List.flatMap_singleton]

/-- A walk through a node is one through the terms that it is made of. -/
lemma walk_ofTerms (op : AssocOp) (es : List Expr) :
    walk note (ofTerms op es) = es.flatMap (walk note) := by
  match es with
  | [] => exact h.walk_empty
  | [e] => exact (List.flatMap_singleton (walk note) e).symm
  | a :: b :: rest => rw [ofTerms, walk_nary, h.nary, List.nil_append]

/-- This is so also if some terms are empty and left out. -/
lemma walk_gather (op : AssocOp) (es : List Expr) :
    walk note (gather op es) = es.flatMap (walk note) := by
  rw [gather, h.walk_ofTerms]
  induction es with
  | nil => rfl
  | cons e es ih =>
    rw [List.flatMap_cons, ← ih, List.filter_cons]
    cases he : e.isEmpty with
    | true =>
      rw [isEmpty_iff.1 he, h.walk_empty]
      rfl
    | false => exact List.flatMap_cons

/-- A walk through a flattened expression meets what a walk through the expression meets. -/
lemma walk_flatten (e : Expr) : walk note e.flatten = walk note e := by
  induction e using Expr.induction with
  | negation e ih => rw [flatten, walk_negation, walk_negation, ih, h.negation]
  | nary op a b rest ih =>
    rw [flatten, flattenAll_eq_map, ← List.map_cons, ← List.map_cons, h.walk_gather, merged,
      List.flatMap_assoc, walk_nary, h.nary, List.nil_append, List.flatMap_map]
    refine List.flatMap_congr fun t ht => ?_
    rw [h.flatMap_walk_terms, ih t ht]
  | division l r hl hr => rw [flatten, walk_division, walk_division, hl, hr, h.division]
  | parentheses e ih => rw [flatten, ih, walk_parentheses, h.parentheses, List.nil_append]
  | _ => rfl

end Overlooks

end Walk

end TermAlgebra.Expr
