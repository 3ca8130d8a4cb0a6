import Mathlib.Tactic
import TermAlgebra.Expr.Basic

/-!
# Kinds of nodes

Which kinds of nodes occur in a tree, and how deep its divisions are nested.

`Expr.consistsOf` says that all nodes of a tree are of given kinds.  Trees without decimals
(`isDecimalFree`) agree only if they are equal (`beq_iff_eq_of_isDecimalFree`).  Exact trees
(`isExact`) have no empty nodes (`isEmptyFree`) either, and polynomials (`isPolynomial`) no
divisions.
-/

namespace TermAlgebra

namespace Expr

/-! ### The kinds that occur in a tree -/

mutual

/-- Whether all nodes of an expression are of kinds that satisfy a condition. -/
def consistsOf (p : NodeKind → Bool) : Expr → Bool
  | empty => p .empty
  | integer _ => p .integer
  | decimal _ => p .decimal
  | var _ => p .var
  | negation e => p .negation && consistsOf p e
  | nary op a b rest =>
    p (.assoc op) && (consistsOf p a && (consistsOf p b && consistsOfAll p rest))
  | division l r => p .division && (consistsOf p l && consistsOf p r)
  | parentheses e => p .parentheses && consistsOf p e

/-- Whether this holds for all the expressions. -/
def consistsOfAll (p : NodeKind → Bool) : List Expr → Bool
  | [] => true
  | e :: es => consistsOf p e && consistsOfAll p es

end

/-- Whether no decimal occurs in an expression. -/
def isDecimalFree (e : Expr) : Bool :=
  e.consistsOf fun kind => kind != .decimal

/-- Whether no empty expression occurs in an expression. -/
def isEmptyFree (e : Expr) : Bool :=
  e.consistsOf fun kind => kind != .empty

/-- Whether an expression is built from integers, variables and operations only. -/
def isExact (e : Expr) : Bool :=
  e.consistsOf fun kind => kind != .decimal && kind != .empty

/-- Whether an exact expression has no division. -/
def isPolynomial (e : Expr) : Bool :=
  e.consistsOf fun kind => kind != .decimal && kind != .empty && kind != .division

variable {p q : NodeKind → Bool}

/-- All the expressions consist of given kinds if each of them does. -/
lemma consistsOfAll_iff {es : List Expr} :
    consistsOfAll p es = true ↔ ∀ e ∈ es, e.consistsOf p = true := by
  induction es with
  | nil => simp [consistsOfAll]
  | cons e es ih => rw [consistsOfAll, Bool.and_eq_true, ih, List.forall_mem_cons]

/-- A tree has no more kinds of nodes than its root and the trees below it. -/
lemma consistsOf_nary {op : AssocOp} {a b : Expr} {rest : List Expr} :
    (nary op a b rest).consistsOf p = true ↔
      p (.assoc op) = true ∧ ∀ t ∈ a :: b :: rest, t.consistsOf p = true := by
  simp only [consistsOf, Bool.and_eq_true, consistsOfAll_iff, List.forall_mem_cons]

/-- A weaker condition on the kinds is met as well. -/
lemma consistsOf_mono (h : ∀ kind, p kind = true → q kind = true) {e : Expr}
    (he : e.consistsOf p = true) : e.consistsOf q = true := by
  induction e using Expr.induction with
  | empty => exact h _ he
  | integer n => exact h _ he
  | decimal d => exact h _ he
  | var s => exact h _ he
  | negation e ih =>
    rw [consistsOf, Bool.and_eq_true] at he ⊢
    exact ⟨h _ he.1, ih he.2⟩
  | nary op a b rest ih =>
    rw [consistsOf_nary] at he ⊢
    exact ⟨h _ he.1, fun t ht => ih t ht (he.2 t ht)⟩
  | division l r hl hr =>
    simp only [consistsOf, Bool.and_eq_true] at he ⊢
    exact ⟨h _ he.1, hl he.2.1, hr he.2.2⟩
  | parentheses e ih =>
    rw [consistsOf, Bool.and_eq_true] at he ⊢
    exact ⟨h _ he.1, ih he.2⟩

/-- Exact expressions have no decimals. -/
lemma isDecimalFree_of_isExact {e : Expr} (h : e.isExact = true) : e.isDecimalFree = true :=
  consistsOf_mono (fun _ hk => (Bool.and_eq_true _ _ ▸ hk).1) h

/-- Exact expressions have nothing empty in them. -/
lemma isEmptyFree_of_isExact {e : Expr} (h : e.isExact = true) : e.isEmptyFree = true :=
  consistsOf_mono (fun _ hk => (Bool.and_eq_true _ _ ▸ hk).2) h

/-- Polynomials are exact. -/
lemma isExact_of_isPolynomial {e : Expr} (h : e.isPolynomial = true) : e.isExact = true :=
  consistsOf_mono (fun _ hk => (Bool.and_eq_true _ _ ▸ hk).1) h

/-! ### Agreement -/

/-- Lists agree in both directions when this is so for their items. -/
lemma agreesAll_comm {es fs : List Expr} (h : ∀ e ∈ es, ∀ f, agrees e f = agrees f e) :
    agreesAll es fs = agreesAll fs es := by
  induction es generalizing fs with
  | nil => cases fs <;> rfl
  | cons e es ih =>
    cases fs with
    | nil => rfl
    | cons f fs =>
      rw [agreesAll, agreesAll, h e List.mem_cons_self,
        ih fun t ht => h t (List.mem_cons_of_mem e ht)]

/-- Expressions agree in both directions. -/
lemma agrees_symm (e f : Expr) : agrees e f = agrees f e := by
  induction e using Expr.induction generalizing f with
  | empty => cases f <;> rfl
  | integer n => cases f <;> simp [agrees, eq_comm]
  | decimal d => cases f <;> simp [agrees, Decimal.agrees_comm d]
  | var s => cases f <;> simp [agrees, eq_comm]
  | negation e ih => cases f <;> simp [agrees, ih]
  | nary op a b rest ih =>
    simp only [List.forall_mem_cons] at ih
    cases f <;> simp only [agrees]
    rw [ih.1, ih.2.1, agreesAll_comm ih.2.2]
    simp only [eq_comm]
  | division l r hl hr => cases f <;> simp [agrees, hl, hr]
  | parentheses e ih => cases f <;> simp [agrees, ih]

/-- Lists agree only if they are equal when this is so for their items. -/
lemma eq_of_agreesAll {es fs : List Expr}
    (h : ∀ e ∈ es, ∀ f, agrees e f = true → e = f) (hes : agreesAll es fs = true) : es = fs := by
  induction es generalizing fs with
  | nil =>
    cases fs with
    | nil => rfl
    | cons f fs => simp [agreesAll] at hes
  | cons e es ih =>
    cases fs with
    | nil => simp [agreesAll] at hes
    | cons f fs =>
      rw [agreesAll, Bool.and_eq_true] at hes
      rw [h e List.mem_cons_self f hes.1,
        ih (fun t ht => h t (List.mem_cons_of_mem e ht)) hes.2]

/-- An expression without decimals agrees with no other expression than itself. -/
lemma eq_of_agrees {e f : Expr} (he : e.isDecimalFree = true) (h : agrees e f = true) :
    e = f := by
  induction e using Expr.induction generalizing f with
  | empty => cases f <;> simp_all [agrees]
  | integer n => cases f <;> simp_all [agrees]
  | decimal d => simp [isDecimalFree, consistsOf] at he
  | var s => cases f <;> simp_all [agrees]
  | negation e ih =>
    cases f <;> simp only [agrees, Bool.false_eq_true] at h
    rw [isDecimalFree, consistsOf, Bool.and_eq_true] at he
    rw [ih he.2 h]
  | nary op a b rest ih =>
    cases f <;> simp only [agrees, Bool.false_eq_true] at h
    simp only [Bool.and_eq_true, decide_eq_true_eq] at h
    obtain ⟨⟨⟨rfl, hab⟩, hbb⟩, hrr⟩ := h
    rw [isDecimalFree, consistsOf_nary] at he
    have hsame : ∀ t ∈ a :: b :: rest, ∀ f, agrees t f = true → t = f :=
      fun t ht f hf => ih t ht (he.2 t ht) hf
    simp only [List.forall_mem_cons] at hsame
    rw [hsame.1 _ hab, hsame.2.1 _ hbb, eq_of_agreesAll hsame.2.2 hrr]
  | division l r hl hr =>
    cases f <;> simp only [agrees, Bool.false_eq_true] at h
    rw [Bool.and_eq_true] at h
    simp only [isDecimalFree, consistsOf, Bool.and_eq_true] at he
    rw [hl he.2.1 h.1, hr he.2.2 h.2]
  | parentheses e ih =>
    cases f <;> simp only [agrees, Bool.false_eq_true] at h
    rw [isDecimalFree, consistsOf, Bool.and_eq_true] at he
    rw [ih he.2 h]

/-- Agreement is equality where no decimal takes part. -/
lemma beq_iff_eq_of_isDecimalFree {e f : Expr} (he : e.isDecimalFree = true) :
    (e == f) = true ↔ e = f := by
  constructor
  · exact eq_of_agrees he
  · rintro rfl
    exact agrees_self e

/-- It is enough that the second one is free of decimals. -/
lemma beq_iff_eq_of_isDecimalFree_right {e f : Expr} (hf : f.isDecimalFree = true) :
    (e == f) = true ↔ e = f := by
  rw [show (e == f) = (f == e) from agrees_symm e f, beq_iff_eq_of_isDecimalFree hf, eq_comm]

/-- Whether a calculation has a result that agrees with a given expression. -/
def returns (x : Except Fault Expr) (r : Expr) : Bool :=
  match x with
  | .ok e => r == e
  | .error _ => false

/-- What agrees with an expression without decimals is this expression. -/
lemma eq_ok_of_returns {x : Except Fault Expr} {r : Expr} (hr : r.isDecimalFree = true)
    (h : returns x r = true) : x = .ok r := by
  cases x with
  | error fault => exact Bool.noConfusion h
  | ok e => rw [(beq_iff_eq_of_isDecimalFree hr).1 h]

end Expr

end TermAlgebra
