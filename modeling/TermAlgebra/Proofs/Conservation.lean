import Mathlib.Tactic
import TermAlgebra.Proofs.Assembling
import TermAlgebra.Proofs.Flattening

/-!
# Conservation in assembly and in flattening

Assembly loses, doubles and reorders nothing, whatever the tokens are.

The operand tokens come back in order as the leaves of the tree (`Assembly.TakesAll.leaves_eq`).
Operations are counted through prices: each joint between two terms of a sum or product, each
negation and each division has a price of its own, and the price of the operands together with that
of the operators which wait is the price of the tokens read (`Assembly.TakesAll.worth_eq`), so that
the four kinds of operations are counted at once (`Expr.price_eq`).  The trees are flat, for joining
merges nodes of the same operation on either side (`Flat.join`).  All this together is
`Assembly.conservation_of_assemble`.

Flattening keeps the leaves in order and the numbers of negations and divisions as well, whatever
the tree is, since a walk through the tree meets the same of them (`flatten_normal`).
-/

namespace TermAlgebra

/-- A price for each joint between two terms of a sum or product, for each negation and for each
division. -/
structure Pricing where
  joint : AssocOp → ℕ
  negation : ℕ
  division : ℕ

namespace Expr

/-! ### Leaves -/

/-- Whether an expression is a constant or a variable. -/
def isLeaf : Expr → Bool
  | integer _ | decimal _ | var _ => true
  | _ => false

/-- The constants and variables in an expression from left to right. -/
def leaves (e : Expr) : List Expr :=
  e.parts.filter isLeaf

/-- The leaves of a negation are those of its operand. -/
lemma leaves_negation (e : Expr) : (negation e).leaves = e.leaves := by
  rw [leaves, parts, List.filter_cons_of_neg Bool.false_ne_true, leaves]

/-- The leaves of a division are those of its left side and then those of its right side. -/
lemma leaves_division (l r : Expr) : (division l r).leaves = l.leaves ++ r.leaves := by
  rw [leaves, parts, List.filter_cons_of_neg Bool.false_ne_true, List.filter_append, leaves, leaves]

/-- The leaves of a sum or product are those of its terms. -/
lemma leaves_nary (op : AssocOp) (a b : Expr) (rest : List Expr) :
    (nary op a b rest).leaves = (a :: b :: rest).flatMap leaves := by
  rw [leaves, parts, List.filter_cons_of_neg Bool.false_ne_true, partsAll_eq_flatMap,
    ← List.flatMap_cons, ← List.flatMap_cons, List.filter_flatMap]
  rfl

/-- The leaves of an operand are those of its terms. -/
lemma flatMap_leaves_terms (op : AssocOp) (e : Expr) :
    (e.terms op).flatMap leaves = e.leaves := by
  rcases eq_nary_or_not_isNary op e with ⟨a, b, rest, rfl⟩ | hnot
  · rw [terms_nary, leaves_nary]
  · rw [terms_of_not_isNary hnot, List.flatMap_singleton]

/-- Joining keeps the leaves in order. -/
lemma leaves_join (op : AssocOp) (a b : Expr) : (join op a b).leaves = a.leaves ++ b.leaves := by
  obtain ⟨x, y, rest, hjoin, hterms⟩ := join_eq_nary op a b
  rw [hjoin, leaves_nary, hterms, List.flatMap_append, flatMap_leaves_terms, flatMap_leaves_terms]

/-! ### Prices -/

/-- The price of the topmost node. -/
def nodePrice (p : Pricing) : Expr → ℕ
  | negation _ => p.negation
  | nary op _ _ rest => p.joint op * (rest.length + 1)
  | division .. => p.division
  | _ => 0

/-- The price of all operations in an expression. -/
def price (p : Pricing) (e : Expr) : ℕ :=
  (e.parts.map (nodePrice p)).sum

/-- The number of joints between the terms of all nodes of an operation. -/
def joints (op : AssocOp) (e : Expr) : ℕ :=
  ((e.parts.filter (isNary op)).map fun t => (t.terms op).length - 1).sum

/-- The number of nodes of a kind. -/
def nodes (kind : NodeKind) (e : Expr) : ℕ :=
  e.parts.countP fun t => t.kind = kind

/-- The price of an expression is that of its joints, negations and divisions. -/
lemma price_eq (p : Pricing) (e : Expr) :
    e.price p = p.joint .sum * e.joints .sum + p.joint .product * e.joints .product +
      p.negation * e.nodes .negation + p.division * e.nodes .division := by
  unfold price joints nodes
  induction e.parts with
  | nil => simp
  | cons t ts ih =>
    rw [List.map_cons, List.sum_cons, ih, List.countP_cons, List.countP_cons]
    cases t with
    | nary op a b rest => cases op <;> simp [nodePrice, isNary, kind] <;> ring
    | _ => simp [nodePrice, isNary, kind] <;> ring

section Price

variable (p : Pricing)

lemma price_negation (e : Expr) : (negation e).price p = p.negation + e.price p := by
  rw [price, parts, List.map_cons, List.sum_cons, nodePrice, price]

lemma price_division (l r : Expr) :
    (division l r).price p = p.division + (l.price p + r.price p) := by
  rw [price, parts, List.map_cons, List.sum_cons, nodePrice, List.map_append, List.sum_append,
    price, price]

lemma price_nary (op : AssocOp) (a b : Expr) (rest : List Expr) :
    (nary op a b rest).price p =
      p.joint op * (rest.length + 1) + ((a :: b :: rest).map (price p)).sum := by
  rw [price, parts, List.map_cons, List.sum_cons, nodePrice, partsAll_eq_flatMap,
    ← List.flatMap_cons, ← List.flatMap_cons, List.map_flatMap, List.flatMap_def,
    List.sum_flatten, List.map_map]
  rfl

/-- With one more joint the price of an operand is that of its terms with a joint for each. -/
lemma price_add_joint (op : AssocOp) (e : Expr) :
    e.price p + p.joint op = ((e.terms op).map fun t => t.price p + p.joint op).sum := by
  have hsum : ∀ ts : List Expr, (ts.map fun t => t.price p + p.joint op).sum =
      (ts.map (price p)).sum + p.joint op * ts.length := by
    intro ts
    rw [List.sum_map_add, List.map_const', List.sum_replicate, smul_eq_mul, mul_comm]
  rcases eq_nary_or_not_isNary op e with ⟨a, b, rest, rfl⟩ | hnot
  · rw [terms_nary, hsum, price_nary, List.length_cons, List.length_cons]
    ring
  · rw [terms_of_not_isNary hnot, List.map_singleton, List.sum_singleton]

/-- Joining two operands costs one joint. -/
lemma price_join (op : AssocOp) (a b : Expr) :
    (join op a b).price p = p.joint op + (a.price p + b.price p) := by
  obtain ⟨x, y, rest, hjoin, hterms⟩ := join_eq_nary op a b
  have hjoined := price_add_joint p op (join op a b)
  rw [hjoin, terms_nary, hterms, List.map_append, List.sum_append, ← price_add_joint,
    ← price_add_joint, ← hjoin] at hjoined
  omega

end Price

/-! ### Flat trees -/

/-- Whether the topmost node is neither empty nor a pair of parentheses nor has a term that is a
node of its own operation. -/
def FlatNode : Expr → Prop
  | empty | parentheses _ => False
  | nary op a b rest => ∀ t ∈ a :: b :: rest, t.isNary op = false
  | _ => True

/-- Whether all nodes of an expression are of this kind. -/
def Flat (e : Expr) : Prop :=
  ∀ t ∈ e.parts, t.FlatNode

lemma flat_negation_iff {e : Expr} : (negation e).Flat ↔ e.Flat := by
  rw [Flat, parts, List.forall_mem_cons]
  exact and_iff_right trivial

lemma flat_division_iff {l r : Expr} : (division l r).Flat ↔ l.Flat ∧ r.Flat := by
  rw [Flat, parts, List.forall_mem_cons, List.forall_mem_append]
  exact and_iff_right trivial

lemma flat_nary_iff {op : AssocOp} {a b : Expr} {rest : List Expr} :
    (nary op a b rest).Flat ↔ ∀ t ∈ a :: b :: rest, t.Flat ∧ t.isNary op = false := by
  unfold Flat
  simp only [mem_parts_nary, forall_eq_or_imp, FlatNode]
  constructor
  · rintro ⟨hnary, hparts⟩ t ht
    exact ⟨fun u hu => hparts u ⟨t, ht, hu⟩, hnary t ht⟩
  · intro h
    refine ⟨fun t ht => (h t ht).2, ?_⟩
    rintro u ⟨t, ht, hu⟩
    exact (h t ht).1 u hu

/-- The terms of a flat operand are flat and no nodes of the operation. -/
lemma Flat.terms {e : Expr} (h : e.Flat) (op : AssocOp) :
    ∀ t ∈ e.terms op, t.Flat ∧ t.isNary op = false := by
  rcases eq_nary_or_not_isNary op e with ⟨a, b, rest, rfl⟩ | hnot
  · rw [terms_nary]
    exact flat_nary_iff.1 h
  · rw [terms_of_not_isNary hnot, List.forall_mem_singleton]
    exact ⟨h, hnot⟩

/-- Joining flat operands gives a flat expression. -/
lemma Flat.join {l r : Expr} (op : AssocOp) (hl : l.Flat) (hr : r.Flat) : (join op l r).Flat := by
  obtain ⟨x, y, rest, hjoin, hterms⟩ := join_eq_nary op l r
  rw [hjoin, flat_nary_iff, hterms, List.forall_mem_append]
  exact ⟨hl.terms op, hr.terms op⟩

/-- Terms that are flat and no nodes of the operation make a flat expression. -/
lemma flat_ofTerms {op : AssocOp} {es : List Expr} (hne : es ≠ [])
    (h : ∀ t ∈ es, t.Flat ∧ t.isNary op = false) : (ofTerms op es).Flat := by
  match es, hne with
  | [e], _ => exact (h e List.mem_cons_self).1
  | a :: b :: rest, _ => exact flat_nary_iff.2 h

/-- The topmost node of a flat expression is no pair of parentheses and not empty. -/
lemma Flat.flatNode {e : Expr} (h : e.Flat) : e.FlatNode := by
  refine h e ?_
  cases e <;> simp [parts]

/-- A flat expression is not empty. -/
lemma Flat.isEmpty {e : Expr} (h : e.Flat) : e.isEmpty = false := by
  refine Bool.eq_false_iff.2 fun hempty => ?_
  rw [isEmpty_iff] at hempty
  exact (hempty ▸ h).flatNode

/-- A flat expression is flattened, and none of its terms is empty. -/
lemma Flat.flattened {e : Expr} (h : e.Flat) : e.Flattened := by
  intro t ht
  have hflat : t.Flat := fun u hu => h u (mem_parts_trans ht hu)
  cases t with
  | nary op a b rest =>
    exact fun u hu => ⟨(flat_nary_iff.1 hflat u hu).1.isEmpty, (flat_nary_iff.1 hflat u hu).2⟩
  | parentheses e => exact hflat.flatNode
  | _ => trivial

/-- Flattening leaves a flat expression as it is. -/
lemma Flat.flatten_eq {e : Expr} (h : e.Flat) : e.flatten = e :=
  h.flattened.flatten_eq

/-- A flattened expression is flat. -/
lemma flat_flatten {e : Expr} (h : e.isEmptyFree = true) : e.flatten.Flat := by
  have hleaf : ∀ {u : Expr}, u.parts = [u] → u.FlatNode → u.Flat := by
    intro u hu hnode t ht
    rw [hu, List.mem_singleton] at ht
    rwa [ht]
  induction e using Expr.induction with
  | empty => exact Bool.noConfusion h
  | integer n => exact hleaf rfl trivial
  | decimal d => exact hleaf rfl trivial
  | var s => exact hleaf rfl trivial
  | negation e ih => exact flat_negation_iff.2 (ih ((hereditary_isEmptyFree.negation e).1 h))
  | nary op a b rest ih =>
    have hflat : ∀ t ∈ merged op ((a :: b :: rest).map flatten),
        t.Flat ∧ t.isNary op = false := by
      intro t ht
      obtain ⟨u, hu, htu⟩ := mem_merged.1 ht
      obtain ⟨v, hv, rfl⟩ := List.mem_map.1 hu
      exact (ih v hv ((hereditary_isEmptyFree.nary op a b rest).1 h v hv)).terms op t htu
    have hgather := gather_eq_ofTerms op fun t ht => (hflat t ht).1.isEmpty
    rw [flatten, flattenAll_eq_map, ← List.map_cons, ← List.map_cons, hgather]
    exact flat_ofTerms (merged_ne_nil op (List.cons_ne_nil _ _)) hflat
  | division l r hl hr =>
    obtain ⟨hleft, hright⟩ := isEmptyFree_division_iff.1 h
    exact flat_division_iff.2 ⟨hl hleft, hr hright⟩
  | parentheses e ih => exact ih (isEmptyFree_parentheses_iff.1 h)

/-! ### Flattening -/

/-- The leaves of an expression are what is met on a walk that notes leaves only. -/
lemma leaves_eq_walk (e : Expr) : e.leaves = walk (fun t => [t].filter isLeaf) e := by
  rw [leaves, walk, ← List.filter_flatMap, List.flatMap_singleton']

/-- The nodes of a kind are as many as a walk notes if it notes these only. -/
lemma nodes_eq_length_walk (kind : NodeKind) (e : Expr) :
    e.nodes kind = (walk (fun t => [t.kind].filter (· = kind)) e).length := by
  rw [nodes, walk, ← List.filter_flatMap, ← List.countP_eq_length_filter, ← List.map_eq_flatMap,
    List.countP_map]
  rfl

/-- Flattening keeps the leaves in order. -/
lemma leaves_flatten (e : Expr) : e.flatten.leaves = e.leaves := by
  have hoverlooks : Overlooks fun t => [t].filter isLeaf :=
    ⟨rfl, fun _ _ _ _ => rfl, fun _ => rfl, fun _ _ => rfl, fun _ _ _ _ => rfl⟩
  rw [leaves_eq_walk, hoverlooks.walk_flatten, ← leaves_eq_walk]

/-- Flattening keeps the numbers of negations and of divisions. -/
lemma nodes_flatten {kind : NodeKind} (h : kind = .negation ∨ kind = .division) (e : Expr) :
    e.flatten.nodes kind = e.nodes kind := by
  have hoverlooks : Overlooks fun t => [t.kind].filter (· = kind) := by
    rcases h with rfl | rfl <;>
      exact ⟨rfl, fun _ _ _ _ => rfl, fun _ => rfl, fun _ _ => rfl, fun _ _ _ _ => rfl⟩
  rw [nodes_eq_length_walk, hoverlooks.walk_flatten, ← nodes_eq_length_walk]

/-- Flattening gives a form without parentheses, in which no term of a sum or product is empty or
a node of the same operation, and leaves this form as it is.  It keeps the leaves in order and the
numbers of negations and of divisions. -/
theorem flatten_normal (e : Expr) :
    e.flatten.Flattened ∧ e.flatten.flatten = e.flatten ∧ e.flatten.leaves = e.leaves ∧
      e.flatten.nodes .negation = e.nodes .negation ∧
      e.flatten.nodes .division = e.nodes .division :=
  ⟨flattened_flatten e, (flattened_flatten e).flatten_eq, leaves_flatten e,
    nodes_flatten (Or.inl rfl) e, nodes_flatten (Or.inr rfl) e⟩

end Expr

/-! ### What operators and tokens are worth -/

/-- The price of what an operator makes. A difference is a sum with a negation. -/
def Operator.price (p : Pricing) : Operator → ℕ
  | plus => p.joint .sum
  | minus => p.joint .sum + p.negation
  | times => p.joint .product
  | divide => p.division
  | unaryPlus => 0
  | unaryMinus => p.negation

/-- The price of what waits. -/
def Pending.price (p : Pricing) : Pending → ℕ
  | .operator op => op.price p
  | .barrier => 0

/-- The price of a token. -/
def Token.price (p : Pricing) : Token → ℕ
  | .operator op => op.price p
  | _ => 0

/-- The price of some tokens, counted by kinds of operators. -/
lemma Token.sum_price_eq (p : Pricing) (tokens : List Token) :
    (tokens.map (Token.price p)).sum =
      p.joint .sum * (tokens.count (.operator .plus) + tokens.count (.operator .minus)) +
        p.joint .product * tokens.count (.operator .times) +
        p.negation * (tokens.count (.operator .minus) + tokens.count (.operator .unaryMinus)) +
        p.division * tokens.count (.operator .divide) := by
  induction tokens with
  | nil => simp
  | cons t ts ih =>
    rw [List.map_cons, List.sum_cons, ih]
    simp only [List.count_cons, beq_iff_eq]
    cases t with
    | operator op => cases op <;> simp [Token.price, Operator.price] <;> ring
    | _ => simp [Token.price]

namespace Operator

variable (p : Pricing)

/-- A sign costs the price of a negation if it makes one. -/
lemma price_signed {op : Operator} (h : op.isUnary = true) (e : Expr) :
    (op.signed e).price p = op.price p + e.price p := by
  cases op with
  | unaryPlus => exact (Nat.zero_add _).symm
  | unaryMinus => exact Expr.price_negation p e
  | _ => exact nomatch h

/-- A binary operator costs its price. -/
lemma price_combined {op : Operator} (h : op.isUnary = false) (l r : Expr) :
    (op.combined l r).price p = op.price p + (l.price p + r.price p) := by
  cases op with
  | plus => exact Expr.price_join p .sum l r
  | minus =>
    rw [combined, Expr.price_join, Expr.price_negation, price]
    ring
  | times => exact Expr.price_join p .product l r
  | divide => exact Expr.price_division p l r
  | _ => exact nomatch h

/-- A sign keeps the leaves. -/
lemma leaves_signed (op : Operator) (e : Expr) : (op.signed e).leaves = e.leaves := by
  unfold signed
  split
  · exact Expr.leaves_negation e
  · rfl

/-- A binary operator keeps the leaves in order. -/
lemma leaves_combined (op : Operator) (l r : Expr) :
    (op.combined l r).leaves = l.leaves ++ r.leaves := by
  cases op with
  | times => exact Expr.leaves_join .product l r
  | divide => exact Expr.leaves_division l r
  | minus => rw [combined, Expr.leaves_join, Expr.leaves_negation]
  | _ => exact Expr.leaves_join .sum l r

end Operator

/-! ### Conservation -/

namespace Assembly

open Grammar (applyAll applyAll_cons)

/-- Applying operators keeps the leaves of the operands in order. -/
lemma leaves_applyAll {waiting : List Operator} {operands results : List Expr}
    (h : applyAll waiting operands = .ok results) :
    results.reverse.flatMap Expr.leaves = operands.reverse.flatMap Expr.leaves := by
  induction waiting generalizing operands with
  | nil =>
    obtain rfl := Except.ok.inj h
    rfl
  | cons op waiting ih =>
    rw [applyAll_cons] at h
    obtain ⟨next, happly, h⟩ := Outcome.bind_eq_ok_iff.1 h
    rw [ih h]
    rcases Operator.applyTo_eq_ok happly with ⟨-, e, rest, rfl, rfl⟩ | ⟨-, l, r, rest, rfl, rfl⟩
    · simp [Operator.leaves_signed]
    · simp [Operator.leaves_combined]

/-- Applying operators adds their prices to those of the operands. -/
lemma price_applyAll (p : Pricing) {waiting : List Operator} {operands results : List Expr}
    (h : applyAll waiting operands = .ok results) :
    (results.map (Expr.price p)).sum =
      (waiting.map (Operator.price p)).sum + (operands.map (Expr.price p)).sum := by
  induction waiting generalizing operands with
  | nil =>
    obtain rfl := Except.ok.inj h
    simp
  | cons op waiting ih =>
    rw [applyAll_cons] at h
    obtain ⟨next, happly, h⟩ := Outcome.bind_eq_ok_iff.1 h
    rw [ih h]
    rcases Operator.applyTo_eq_ok happly with ⟨hop, e, rest, rfl, rfl⟩ | ⟨hop, l, r, rest, rfl, rfl⟩
    · simp only [List.map_cons, List.sum_cons, Operator.price_signed p hop]
      ring
    · simp only [List.map_cons, List.sum_cons, Operator.price_combined p hop]
      ring

/-- Waiting operators are worth the prices of the operators. -/
lemma sum_price_map_operator (p : Pricing) (waiting : List Operator) :
    ((waiting.map Pending.operator).map (Pending.price p)).sum =
      (waiting.map (Operator.price p)).sum := by
  rw [List.map_map]
  rfl

/-- What a state is worth: the prices of the operands and of all that waits. -/
def worth (p : Pricing) (state : Assembly) : ℕ :=
  (state.operands.map (Expr.price p)).sum + (state.pending.map (Pending.price p)).sum

/-- A token adds its price to what the state is worth. -/
lemma Takes.worth_eq (p : Pricing) {state next : Assembly} {token : Token}
    (h : Takes state token next) : next.worth p = state.worth p + token.price p := by
  cases h with
  | @operand token e htoken =>
    have hprice : e.price p = 0 ∧ token.price p = 0 := by
      cases token with
      | operator op => exact nomatch htoken
      | paren side => exact nomatch htoken
      | _ =>
        obtain rfl := Option.some.inj htoken
        exact ⟨rfl, rfl⟩
    rw [worth, worth, List.map_cons, List.sum_cons, hprice.1, hprice.2, zero_add, add_zero]
  | operator op hpending happly =>
    rw [worth, worth, hpending, List.map_append, List.sum_append, sum_price_map_operator,
      List.map_cons, List.sum_cons, price_applyAll p happly, Pending.price, Token.price]
    ring
  | opening => simp [worth, Pending.price, Token.price]
  | closing hpending happly =>
    have htoken : (Token.paren .right).price p = 0 := rfl
    rw [worth, worth, hpending, List.map_append, List.sum_append, sum_price_map_operator,
      List.map_cons, List.sum_cons, price_applyAll p happly, Pending.price, htoken]
    ring

/-- Tokens add their prices to what the state is worth. -/
lemma TakesAll.worth_eq (p : Pricing) {state last : Assembly} {tokens : List Token}
    (h : TakesAll state tokens last) :
    last.worth p = state.worth p + (tokens.map (Token.price p)).sum := by
  induction h with
  | nil state => simp
  | cons htakes _ ih =>
    rw [ih, htakes.worth_eq p, List.map_cons, List.sum_cons]
    ring

/-- A token adds a leaf behind the others if it is an operand, and changes no leaves otherwise. -/
lemma Takes.leaves_eq {state next : Assembly} {token : Token} (h : Takes state token next) :
    next.operands.reverse.flatMap Expr.leaves =
      state.operands.reverse.flatMap Expr.leaves ++ (Expr.ofToken? token).toList := by
  cases h with
  | @operand token e htoken =>
    have hleaf : e.leaves = [e] := by
      cases token with
      | operator op => exact nomatch htoken
      | paren side => exact nomatch htoken
      | _ =>
        obtain rfl := Option.some.inj htoken
        rfl
    rw [htoken, List.reverse_cons, List.flatMap_append, List.flatMap_singleton, hleaf]
    rfl
  | operator op _ happly =>
    rw [leaves_applyAll happly]
    exact (List.append_nil _).symm
  | opening => exact (List.append_nil _).symm
  | closing _ happly =>
    rw [leaves_applyAll happly]
    exact (List.append_nil _).symm

/-- Tokens add their operands in order behind the leaves that are there. -/
lemma TakesAll.leaves_eq {state last : Assembly} {tokens : List Token}
    (h : TakesAll state tokens last) :
    last.operands.reverse.flatMap Expr.leaves =
      state.operands.reverse.flatMap Expr.leaves ++ tokens.filterMap Expr.ofToken? := by
  induction h with
  | nil state => exact (List.append_nil _).symm
  | @cons state next last token tokens htakes _ ih =>
    rw [ih, htakes.leaves_eq, List.append_assoc]
    cases htoken : Expr.ofToken? token with
    | none => rw [List.filterMap_cons_none htoken]; rfl
    | some e => rw [List.filterMap_cons_some htoken]; rfl

/-- The leaves of an assembled expression are the operands among the tokens, and its price is that
of the tokens. -/
lemma leaves_and_price_of_assemble {tokens : List Token} {e : Expr}
    (h : Expr.assemble tokens = .ok e) :
    e.leaves = tokens.filterMap Expr.ofToken? ∧
      ∀ p, e.price p = (tokens.map (Token.price p)).sum := by
  obtain ⟨waiting, operands, results, htakes, happly, hresults⟩ := exists_takesAll h
  have hleaves : results.reverse.flatMap Expr.leaves = tokens.filterMap Expr.ofToken? := by
    rw [leaves_applyAll happly, htakes.leaves_eq]
    rfl
  have hprice : ∀ p, (results.map (Expr.price p)).sum = (tokens.map (Token.price p)).sum := by
    intro p
    have hworth := htakes.worth_eq p
    rw [worth, worth, sum_price_map_operator] at hworth
    rw [price_applyAll p happly, add_comm, hworth]
    exact Nat.zero_add _
  rcases hresults with ⟨rfl, rfl⟩ | rfl
  · exact ⟨hleaves, hprice⟩
  · simpa using And.intro hleaves hprice

/-- An assembled expression is empty or flat. -/
lemma flat_of_assemble {tokens : List Token} {e : Expr} (h : Expr.assemble tokens = .ok e) :
    e = .empty ∨ e.Flat := by
  refine result_invariant (fun _ he => Expr.flat_negation_iff.2 he)
    (fun op _ _ hl hr => hl.join op hr) (fun _ _ hl hr => Expr.flat_division_iff.2 ⟨hl, hr⟩) ?_ h
  intro t _ e htoken
  have hleaf : e.parts = [e] ∧ e.FlatNode := by
    cases t with
    | operator op => exact nomatch htoken
    | paren side => exact nomatch htoken
    | _ =>
      obtain rfl := Option.some.inj htoken
      exact ⟨rfl, trivial⟩
  rw [Expr.Flat, hleaf.1, List.forall_mem_singleton]
  exact hleaf.2

/-- Assembly loses, doubles and reorders nothing.  The leaves of the tree are the operands among
the tokens in order; there is one division for each `/`, one negation for each `-` of either kind,
one joint of a sum for each binary `+` or `-` and one joint of a product for each `*`.  The tree is
empty, and then there are no operands, or flat. -/
theorem conservation_of_assemble {tokens : List Token} {e : Expr}
    (h : Expr.assemble tokens = .ok e) :
    e.leaves = tokens.filterMap Expr.ofToken? ∧
      e.nodes .division = tokens.count (.operator .divide) ∧
      e.nodes .negation =
        tokens.count (.operator .minus) + tokens.count (.operator .unaryMinus) ∧
      e.joints .sum = tokens.count (.operator .plus) + tokens.count (.operator .minus) ∧
      e.joints .product = tokens.count (.operator .times) ∧
      (e = .empty ∧ tokens.filterMap Expr.ofToken? = [] ∨ e.Flat) ∧ e.flatten = e := by
  obtain ⟨hleaves, hprice⟩ := leaves_and_price_of_assemble h
  have hcounts := fun p : Pricing =>
    (Expr.price_eq p e).symm.trans ((hprice p).trans (Token.sum_price_eq p tokens))
  -- a price of one for one kind of operation and of nothing for the others counts that kind
  refine ⟨hleaves, by simpa using hcounts ⟨fun _ => 0, 0, 1⟩,
    by simpa using hcounts ⟨fun _ => 0, 1, 0⟩,
    by simpa using hcounts ⟨fun op => if op = .sum then 1 else 0, 0, 0⟩,
    by simpa using hcounts ⟨fun op => if op = .product then 1 else 0, 0, 0⟩, ?_⟩
  rcases flat_of_assemble h with rfl | hflat
  · exact ⟨Or.inl ⟨rfl, hleaves.symm⟩, rfl⟩
  · exact ⟨Or.inr hflat, hflat.flatten_eq⟩

/-- For instance the tokens of `w x - ()`, which is no sentence of the grammar, are assembled to a
difference. -/
theorem conservation_of_assemble_juxtaposed :
    (Expr.sum (.var "w") (.negation (.var "x")) []).leaves =
        [Token.name "w", .name "x", .operator .minus, .paren .left,
          .paren .right].filterMap Expr.ofToken? ∧
      (Expr.sum (.var "w") (.negation (.var "x")) []).joints .sum = 1 ∧
      (Expr.sum (.var "w") (.negation (.var "x")) []).nodes .negation = 1 ∧
      (Expr.sum (.var "w") (.negation (.var "x")) []).Flat := by
  have hassemble : Expr.assemble [.name "w", .name "x", .operator .minus, .paren .left,
      .paren .right] = .ok (.sum (.var "w") (.negation (.var "x")) []) := rfl
  obtain ⟨hleaves, -, hnegation, hsum, -, hflat, -⟩ := conservation_of_assemble hassemble
  exact ⟨hleaves, hsum, hnegation, hflat.resolve_left fun hempty => nomatch hempty.1⟩

end Assembly

end TermAlgebra
