import TermAlgebra.Fault

/-!
# Expressions

The tree of an arithmetic expression. A sum or product has two or more terms, so its first two are
fields of their own. Main definitions: `Expr`, `Expr.terms`, `Expr.gather` and `Expr.join`, which
move between such nodes and lists of terms, `Expr.agrees` and `Expr.complexity`.
-/

namespace TermAlgebra

/-- An arithmetic expression. `empty` is the expression of an empty text, and `parentheses` keeps
a pair of parentheses that was written. -/
inductive Expr
  | empty
  | integer (value : Int)
  | decimal (value : Decimal)
  | var (name : String)
  | negation (operand : Expr)
  | nary (op : AssocOp) (first second : Expr) (rest : List Expr)
  | division (left right : Expr)
  | parentheses (inner : Expr)

namespace Expr

instance : Inhabited Expr := ⟨empty⟩

/-- A sum of two or more terms. -/
@[match_pattern] abbrev sum (first second : Expr) (rest : List Expr) : Expr :=
  nary .sum first second rest

/-- A product of two or more factors. -/
@[match_pattern] abbrev product (first second : Expr) (rest : List Expr) : Expr :=
  nary .product first second rest

/-- To prove a property of all expressions it is enough to derive it for each kind of node from
the property of its parts. -/
@[elab_as_elim]
theorem induction {P : Expr → Prop} (empty : P empty) (integer : ∀ n, P (integer n))
    (decimal : ∀ d, P (decimal d)) (var : ∀ s, P (var s))
    (negation : ∀ e, P e → P (negation e))
    (nary : ∀ op a b rest, (∀ t ∈ a :: b :: rest, P t) → P (nary op a b rest))
    (division : ∀ l r, P l → P r → P (division l r))
    (parentheses : ∀ e, P e → P (parentheses e)) (e : Expr) : P e :=
  Expr.rec (motive_2 := fun es => ∀ t ∈ es, P t) empty integer decimal var negation
    (fun op a b rest ha hb hrest => nary op a b rest
      (List.forall_mem_cons.2 ⟨ha, List.forall_mem_cons.2 ⟨hb, hrest⟩⟩)) division parentheses
    (fun _ h => absurd h List.not_mem_nil)
    (fun _ _ ha hes t ht => (List.mem_cons.1 ht).elim (fun h => h ▸ ha) (hes t)) e

/-! ### Kinds of node -/

/-- The kind of the topmost node. -/
def kind : Expr → NodeKind
  | empty => .empty
  | integer _ => .integer
  | decimal _ => .decimal
  | var _ => .var
  | negation _ => .negation
  | nary op .. => .assoc op
  | division .. => .division
  | parentheses _ => .parentheses

/-- Whether the expression is empty. -/
def isEmpty : Expr → Bool
  | empty => true
  | _ => false

/-- Whether the expression is an integer or decimal constant. -/
def isConstant : Expr → Bool
  | integer _ | decimal _ => true
  | _ => false

/-- Whether the expression is a node of the given associative operation. -/
def isNary (op : AssocOp) : Expr → Bool
  | nary o .. => o = op
  | _ => false

/-- Whether the expression is a division. -/
def isDivision : Expr → Bool
  | division .. => true
  | _ => false

/-- The precedence of the operator between the parts of the expression, if there is one. A sign
stands in front of its operand and not between parts. -/
def precedence? : Expr → Option Nat
  | nary op .. => some op.operator.precedence
  | division .. => some Operator.divide.precedence
  | _ => none

/-! ### Terms -/

/-- The terms of an expression seen as an operand of `op`: those of a node of `op`, and the
expression itself otherwise. -/
def terms (op : AssocOp) : Expr → List Expr
  | nary o first second rest =>
    if o = op then first :: second :: rest else [nary o first second rest]
  | e => [e]

/-- An operand has at least one term. -/
theorem terms_ne_nil (op : AssocOp) (e : Expr) : e.terms op ≠ [] := by
  cases e <;> simp only [terms]
  case nary => split <;> simp
  all_goals simp

@[simp] theorem terms_nary (op : AssocOp) (a b : Expr) (rest : List Expr) :
    (nary op a b rest).terms op = a :: b :: rest := by
  simp [terms]

/-- The terms of all the given operands of `op` in one list. -/
def merged (op : AssocOp) (es : List Expr) : List Expr :=
  es.flatMap (terms op)

/-- One node of `op` for a list of terms: no node is needed for a single term, and no terms at all
make the empty expression. -/
def ofTerms (op : AssocOp) : List Expr → Expr
  | [] => empty
  | [e] => e
  | first :: second :: rest => nary op first second rest

/-- The terms of `op` gathered into one expression, empty ones left out. -/
def gather (op : AssocOp) (es : List Expr) : Expr :=
  ofTerms op (es.filter fun e => !e.isEmpty)

/-- Two operands of `op` joined into one node, into which nodes of `op` are merged. -/
def join (op : AssocOp) (a b : Expr) : Expr :=
  ofTerms op (a.terms op ++ b.terms op)

/-- Joining always makes a node, whose terms are those of the two operands. -/
theorem join_eq_nary (op : AssocOp) (a b : Expr) :
    ∃ first second rest, join op a b = nary op first second rest ∧
      first :: second :: rest = a.terms op ++ b.terms op := by
  obtain ⟨x, xs, hx⟩ := List.exists_cons_of_ne_nil (terms_ne_nil op a)
  obtain ⟨y, ys, hy⟩ := List.exists_cons_of_ne_nil (terms_ne_nil op b)
  rw [join, hx, hy]
  cases xs with
  | nil => exact ⟨x, y, ys, rfl, rfl⟩
  | cons z zs => exact ⟨x, z, zs ++ y :: ys, rfl, rfl⟩

/-! ### Agreement -/

mutual

/-- Whether two expressions are the same tree, with constants of the same kind and value. -/
def agrees : Expr → Expr → Bool
  | empty, empty => true
  | integer n, integer m => n = m
  | decimal d, decimal e => d.agrees e
  | var s, var t => s = t
  | negation a, negation b => agrees a b
  | nary op a b rest, nary op' a' b' rest' =>
    op = op' && agrees a a' && agrees b b' && agreesAll rest rest'
  | division l r, division l' r' => agrees l l' && agrees r r'
  | parentheses a, parentheses b => agrees a b
  | _, _ => false

/-- Whether two lists of expressions agree item by item. -/
def agreesAll : List Expr → List Expr → Bool
  | [], [] => true
  | a :: as, b :: bs => agrees a b && agreesAll as bs
  | _, _ => false

end

/-- Expressions are compared by agreement. -/
instance : BEq Expr := ⟨agrees⟩

theorem agreesAll_self {es : List Expr} (h : ∀ e ∈ es, agrees e e = true) :
    agreesAll es es = true := by
  induction es with
  | nil => rfl
  | cons e es ih =>
    rw [agreesAll, h e List.mem_cons_self, ih fun t ht => h t (List.mem_cons_of_mem e ht)]
    rfl

/-- Every expression agrees with itself. -/
@[simp] theorem agrees_self (e : Expr) : agrees e e = true := by
  induction e using Expr.induction with
  | empty => rfl
  | integer n => simp [agrees]
  | decimal d => simp [agrees]
  | var s => simp [agrees]
  | negation e ih => simpa [agrees] using ih
  | nary op a b rest ih =>
    simp only [List.forall_mem_cons] at ih
    simp [agrees, ih.1, ih.2.1, agreesAll_self ih.2.2]
  | division l r hl hr => simp [agrees, hl, hr]
  | parentheses e ih => simpa [agrees] using ih

instance : ReflBEq Expr := ⟨agrees_self _⟩

/-! ### Measures -/

mutual

/-- How complicated an expression is: a constant counts one, a variable two, a sign and a division
one more than their parts, and each joint between two terms of a sum two and of a product one. -/
def complexity : Expr → Nat
  | empty => 0
  | integer _ => 1
  | decimal _ => 1
  | var _ => 2
  | negation e => 1 + complexity e
  | nary op a b rest =>
    complexity a + complexity b + complexityAll rest + op.cost * (rest.length + 1)
  | division l r => complexity l + complexity r + 1
  | parentheses e => complexity e

/-- The complexities of all the expressions together. -/
def complexityAll : List Expr → Nat
  | [] => 0
  | e :: es => complexity e + complexityAll es

end

mutual

/-- The number of nodes that are neither constant nor empty. -/
def openSize : Expr → Nat
  | empty => 0
  | integer _ => 0
  | decimal _ => 0
  | var _ => 1
  | negation e => openSize e + 1
  | nary _ a b rest => openSize a + openSize b + openSizeAll rest + 1
  | division l r => openSize l + openSize r + 1
  | parentheses e => openSize e + 1

/-- The number of such nodes in all the expressions together. -/
def openSizeAll : List Expr → Nat
  | [] => 0
  | e :: es => openSize e + openSizeAll es

end

mutual

/-- The greatest number of divisions on a path from the root. -/
def divisionDepth : Expr → Nat
  | empty => 0
  | integer _ => 0
  | decimal _ => 0
  | var _ => 0
  | negation e => divisionDepth e
  | nary _ a b rest => max (divisionDepth a) (max (divisionDepth b) (divisionDepthAll rest))
  | division l r => max (divisionDepth l) (divisionDepth r) + 1
  | parentheses e => divisionDepth e

/-- The greatest division depth among the expressions. -/
def divisionDepthAll : List Expr → Nat
  | [] => 0
  | e :: es => max (divisionDepth e) (divisionDepthAll es)

end

/-- A bound on the division depth of all expressions is a bound for each of them. -/
theorem divisionDepthAll_le_iff {es : List Expr} {depth : Nat} :
    divisionDepthAll es ≤ depth ↔ ∀ e ∈ es, e.divisionDepth ≤ depth := by
  induction es with
  | nil => simp [divisionDepthAll]
  | cons e es ih => rw [divisionDepthAll, Nat.max_le, ih, List.forall_mem_cons]

end Expr

end TermAlgebra
