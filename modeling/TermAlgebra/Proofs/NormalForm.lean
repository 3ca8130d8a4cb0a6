import Mathlib.Tactic
import TermAlgebra.Proofs.Settling

/-!
# The normal form

What a simplified tree looks like at every depth.

`Expr.parts` lists a tree together with all trees within it, the sides of divisions included, and
`Expr.NormalNode` says what is required of the topmost node of each of them: no sign, no parentheses
and nothing empty; no sum directly in a sum and no product directly in a product; at most one
constant among the terms, in front, not zero and in a product not one; and no quotient of integers
that could be reduced.  All parts of a folded tree are folded (`Folded.of_mem_parts`) and have such
a node on top (`Folded.normalNode`), and a simplified tree is folded unless a run was broken off
(`normalNode_of_simplify`).
-/

namespace TermAlgebra.Expr

/-! ### Parts of a tree -/

mutual

/-- The expression and all expressions within it. -/
def parts : Expr → List Expr
  | negation e => negation e :: parts e
  | nary op a b rest => nary op a b rest :: (parts a ++ (parts b ++ partsAll rest))
  | division l r => division l r :: (parts l ++ parts r)
  | parentheses e => parentheses e :: parts e
  | e => [e]

/-- The parts of all the expressions. -/
def partsAll : List Expr → List Expr
  | [] => []
  | e :: es => parts e ++ partsAll es

end

/-- The parts are listed item by item. -/
lemma partsAll_eq_flatMap (es : List Expr) : partsAll es = es.flatMap parts := by
  induction es with
  | nil => rfl
  | cons e es ih => rw [partsAll, ih, List.flatMap_cons]

/-- A part of a node is the node itself or a part of one of its terms. -/
lemma mem_parts_nary {op : AssocOp} {a b t : Expr} {rest : List Expr} :
    t ∈ (nary op a b rest).parts ↔ t = nary op a b rest ∨ ∃ u ∈ a :: b :: rest, t ∈ u.parts := by
  rw [parts, partsAll_eq_flatMap, List.mem_cons, ← List.flatMap_cons, ← List.flatMap_cons,
    List.mem_flatMap]

/-- The parts of a part are parts. -/
lemma mem_parts_trans {e t u : Expr} (ht : t ∈ e.parts) (hu : u ∈ t.parts) : u ∈ e.parts := by
  induction e using Expr.induction with
  | negation e ih =>
    rcases List.mem_cons.1 ht with rfl | ht
    · exact hu
    · exact List.mem_cons_of_mem _ (ih ht)
  | nary op a b rest ih =>
    rcases mem_parts_nary.1 ht with rfl | ⟨v, hv, ht⟩
    · exact hu
    · exact mem_parts_nary.2 (Or.inr ⟨v, hv, ih v hv ht⟩)
  | division l s ihl ihs =>
    rw [parts, List.mem_cons, List.mem_append] at ht
    rcases ht with rfl | ht | ht
    · exact hu
    · exact List.mem_cons_of_mem _ (List.mem_append_left _ (ihl ht))
    · exact List.mem_cons_of_mem _ (List.mem_append_right _ (ihs ht))
  | parentheses e ih =>
    rcases List.mem_cons.1 ht with rfl | ht
    · exact hu
    · exact List.mem_cons_of_mem _ (ih ht)
  | _ =>
    rw [List.mem_singleton.1 ht] at hu
    exact hu

/-- The parts of the sides of a division are parts of the tree that it stands in. -/
lemma parts_of_division {e l s : Expr} (hd : division l s ∈ e.parts) :
    (∀ t ∈ l.parts, t ∈ e.parts) ∧ ∀ t ∈ s.parts, t ∈ e.parts :=
  ⟨fun _ ht => mem_parts_trans hd (List.mem_cons_of_mem _ (List.mem_append_left _ ht)),
    fun _ ht => mem_parts_trans hd (List.mem_cons_of_mem _ (List.mem_append_right _ ht))⟩

/-- The parts of an expression consist of the same kinds of nodes. -/
lemma consistsOf_of_mem_parts {p : NodeKind → Bool} {e t : Expr} (he : e.consistsOf p = true)
    (ht : t ∈ e.parts) : t.consistsOf p = true := by
  induction e using Expr.induction with
  | negation e ih =>
    rcases List.mem_cons.1 ht with rfl | ht
    · exact he
    · exact ih (Bool.and_eq_true_iff.1 he).2 ht
  | nary op a b rest ih =>
    rcases mem_parts_nary.1 ht with rfl | ⟨u, hu, ht⟩
    · exact he
    · exact ih u hu ((consistsOf_nary.1 he).2 u hu) ht
  | division l r ihl ihr =>
    rw [parts, List.mem_cons, List.mem_append] at ht
    rcases ht with rfl | ht | ht
    · exact he
    · rw [consistsOf, Bool.and_eq_true, Bool.and_eq_true] at he
      exact ihl he.2.1 ht
    · rw [consistsOf, Bool.and_eq_true, Bool.and_eq_true] at he
      exact ihr he.2.2 ht
  | parentheses e ih =>
    rcases List.mem_cons.1 ht with rfl | ht
    · exact he
    · exact ih (Bool.and_eq_true_iff.1 he).2 ht
  | _ => exact (List.mem_singleton.1 ht) ▸ he

/-! ### Normal nodes -/

/-- Whether the topmost node of an expression is one that a simplified expression may have. -/
def NormalNode : Expr → Prop
  | integer _ | var _ => True
  | empty | decimal _ | negation _ | parentheses _ => False
  | nary op a b rest =>
    (∀ t ∈ a :: b :: rest, t.isNary op = false) ∧ (∀ t ∈ b :: rest, t.isConstant = false) ∧
      ∀ n ∈ a.integer?, n ≠ 0 ∧ (op = .product → n ≠ 1)
  | division l r => ∀ a ∈ l.integer?, ∀ b ∈ r.integer?, ¬ (0 < b ∧ b ∣ a)

/-- Whether a node is a normal one can be decided. -/
instance : DecidablePred NormalNode
  | integer _ | var _ => inferInstanceAs (Decidable True)
  | empty | decimal _ | negation _ | parentheses _ => inferInstanceAs (Decidable False)
  | nary _ a _ _ => inferInstanceAs (Decidable (_ ∧ _ ∧ ∀ n ∈ a.integer?, _))
  | division l r => inferInstanceAs (Decidable (∀ a ∈ l.integer?, ∀ b ∈ r.integer?, _))

/-- For instance a constant may not stand behind a variable. -/
example : ¬ (sum (var "x") (integer 3) []).NormalNode := by decide

/-- The topmost node of a folded expression is a normal one. -/
lemma Folded.normalNode {e : Expr} (h : Folded e) : NormalNode e := by
  cases h with
  | integer n => trivial
  | var s => trivial
  | nary op _ hnary htidy =>
    refine ⟨hnary, htidy.2, fun n hn => ?_⟩
    obtain ⟨hunit, hzero⟩ := htidy.1 n (integer?_eq_some_iff.1 hn)
    cases op with
    | sum => exact ⟨hunit, fun hop => nomatch hop⟩
    | product => exact ⟨hzero rfl, fun _ => hunit⟩
  | division _ _ hirreducible =>
    intro a ha b hb hdivides
    rw [integer?_eq_some_iff.1 ha, integer?_eq_some_iff.1 hb, integerQuotient?,
      if_pos (divides_iff.2 hdivides)] at hirreducible
    exact Option.some_ne_none _ hirreducible

/-- All parts of a folded expression are folded. -/
lemma Folded.of_mem_parts {e t : Expr} (h : Folded e) (ht : t ∈ e.parts) : Folded t := by
  induction h with
  | integer n =>
    rw [List.mem_singleton.1 ht]
    exact .integer n
  | var s =>
    rw [List.mem_singleton.1 ht]
    exact .var s
  | nary op hfolded hnary htidy ih =>
    rcases mem_parts_nary.1 ht with rfl | ⟨u, hu, htu⟩
    · exact .nary op hfolded hnary htidy
    · exact ih u hu htu
  | division hl hr hirreducible ihl ihr =>
    rw [parts, List.mem_cons, List.mem_append] at ht
    rcases ht with rfl | ht | ht
    · exact .division hl hr hirreducible
    · exact ihl ht
    · exact ihr ht

/-- If no run is broken off, a simplified expression has normal nodes only, at every depth. -/
theorem normalNode_of_simplify {e r : Expr} (he : e.isExact = true)
    (h : e.simplifyTraced.Settles r) : ∀ t ∈ r.parts, t.NormalNode := by
  have hsettled := settlesBelow_simplifyTraced _ e r he (Nat.lt_succ_self _) h
  exact fun t ht => (hsettled.folded.of_mem_parts ht).normalNode

/-- For instance a sum with a quotient in it, the left side of which is a product. -/
theorem normalNode_of_simplify_quotient :
    NormalNode (sum (integer 3) (division (product (integer 2) (var "x") []) (integer 4)) []) ∧
      NormalNode (product (integer 2) (var "x") []) := by
  have hsettles : (sum (division (parentheses (sum (var "x") (var "x") []))
      (sum (integer 1) (integer 3) [])) (negation (integer (-3)))
        [integer 0]).simplifyTraced.Settles
        (sum (integer 3) (division (product (integer 2) (var "x") []) (integer 4)) []) :=
    ⟨eq_ok_of_returns rfl (by decide +kernel), by decide +kernel⟩
  have hnormal := normalNode_of_simplify rfl hsettles
  exact ⟨hnormal _ (by simp [parts, partsAll]), hnormal _ (by simp [parts, partsAll])⟩

end TermAlgebra.Expr
