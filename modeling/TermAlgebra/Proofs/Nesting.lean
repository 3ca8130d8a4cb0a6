import Mathlib.Tactic
import TermAlgebra.Proofs.Runs

/-!
# Nested runs

Simplification is one run of steps in which the sides of divisions are simplified in turn.

A step treats some sides of divisions (`Expr.treatedSides`), and how it treats other ones does not
matter (`stepWith_congr`); that these can be treated is all that it takes to resolve the divisions
of an exact tree (`exists_resolveDivisions`).  Treated sides are less deep than the tree
(`divisionDepth_lt_of_mem_treatedSides`), and rewriting never makes divisions deeper
(`Rewrites.divisionDepth_le`).  Hence the number of levels that `simplifyUpTo` is given does not
matter as long as it is not less than the division depth, and simplification satisfies an equation
without any such number (`simplifyTraced_eq_runWith`).
-/

namespace TermAlgebra

/-- A computation may be continued in another way if both ways agree on its result. -/
lemma Traced.bind_congr_of_ok {α β : Type} {x : Traced α} {f g : α → Traced β}
    (h : ∀ a, x.result = .ok a → f a = g a) : x >>= f = x >>= g := by
  obtain ⟨notes, result⟩ := x
  cases result with
  | error fault => rfl
  | ok a =>
    have ha : f a = g a := h a rfl
    simp only [bind, Traced.andThen, ha]

namespace Expr

/-! ### Division depth -/

/-- Every expression consists of some kinds of nodes. -/
lemma consistsOf_true (e : Expr) : e.consistsOf (fun _ => true) = true := by
  induction e using Expr.induction with
  | negation e ih => rw [consistsOf, ih, Bool.and_true]
  | nary op a b rest ih => exact consistsOf_nary.2 ⟨rfl, ih⟩
  | division l r hl hr => rw [consistsOf, hl, hr, Bool.and_true, Bool.and_true]
  | parentheses e ih => rw [consistsOf, ih, Bool.and_true]
  | _ => rfl

/-- Rewriting does not make divisions deeper. -/
lemma Rewrites.divisionDepth_le {e e' : Expr} (h : Rewrites e e') :
    e'.divisionDepth ≤ e.divisionDepth :=
  (h.within ⟨rfl, rfl, fun _ => rfl⟩ ⟨consistsOf_true e, le_rfl⟩).2

/-! ### Treated sides -/

mutual

/-- The sides of the outermost divisions of an expression that do not reduce as they stand. -/
def treatedSides : Expr → List Expr
  | division l r =>
    match reduceQuotient? l r with
    | .ok none => [l, r]
    | _ => []
  | nary _ a b rest => treatedSides a ++ (treatedSides b ++ treatedSidesAll rest)
  | negation e => treatedSides e
  | parentheses e => treatedSides e
  | _ => []

/-- Those of all the expressions. -/
def treatedSidesAll : List Expr → List Expr
  | [] => []
  | e :: es => treatedSides e ++ treatedSidesAll es

end

/-- The treated sides are listed item by item. -/
lemma treatedSidesAll_eq_flatMap (es : List Expr) :
    treatedSidesAll es = es.flatMap treatedSides := by
  induction es with
  | nil => rfl
  | cons e es ih => rw [treatedSidesAll, ih, List.flatMap_cons]

/-- The treated sides of a node are those of its terms. -/
lemma mem_treatedSides_nary {op : AssocOp} {a b s : Expr} {rest : List Expr} :
    s ∈ (nary op a b rest).treatedSides ↔ ∃ t ∈ a :: b :: rest, s ∈ t.treatedSides := by
  rw [treatedSides, treatedSidesAll_eq_flatMap, ← List.flatMap_cons, ← List.flatMap_cons,
    List.mem_flatMap]

/-- The treated sides of a division are its sides, if there are any. -/
lemma eq_of_mem_treatedSides {l r s : Expr} (hs : s ∈ (division l r).treatedSides) :
    s = l ∨ s = r := by
  rw [treatedSides] at hs
  split at hs
  · simpa using hs
  · exact absurd hs List.not_mem_nil

/-- What passes from every expression to its operands is true of the treated sides. -/
lemma of_mem_treatedSides {P : Expr → Prop} (hnegation : ∀ e, P (negation e) → P e)
    (hnary : ∀ op a b rest, P (nary op a b rest) → ∀ t ∈ a :: b :: rest, P t)
    (hdivision : ∀ l r, P (division l r) → P l ∧ P r)
    (hparentheses : ∀ e, P (parentheses e) → P e) {e s : Expr} (he : P e)
    (hs : s ∈ e.treatedSides) : P s := by
  induction e using Expr.induction with
  | negation e ih => exact ih (hnegation e he) hs
  | nary op a b rest ih =>
    obtain ⟨t, ht, hst⟩ := mem_treatedSides_nary.1 hs
    exact ih t ht (hnary op a b rest he t ht) hst
  | division l r _ _ =>
    rcases eq_of_mem_treatedSides hs with rfl | rfl
    · exact (hdivision _ _ he).1
    · exact (hdivision _ _ he).2
  | parentheses e ih => exact ih (hparentheses e he) hs
  | _ => exact absurd hs List.not_mem_nil

/-- The treated sides of an exact tree are exact. -/
lemma isExact_of_mem_treatedSides {e s : Expr} (he : e.isExact = true) (hs : s ∈ e.treatedSides) :
    s.isExact = true :=
  of_mem_treatedSides (P := fun t => t.isExact = true) (fun e => (hereditary_isExact.negation e).1)
    (fun op a b rest => (hereditary_isExact.nary op a b rest).1) (fun _ _ => isExact_division_iff.1)
    (fun _ => isExact_parentheses_iff.1) he hs

/-- A treated side has a lesser division depth. -/
lemma divisionDepth_lt_of_mem_treatedSides {e s : Expr} (hs : s ∈ e.treatedSides) :
    s.divisionDepth < e.divisionDepth := by
  induction e using Expr.induction with
  | negation e ih => exact ih hs
  | nary op a b rest ih =>
    obtain ⟨t, ht, hst⟩ := mem_treatedSides_nary.1 hs
    exact (ih t ht hst).trans_le (divisionDepth_nary_le_iff.1 le_rfl t ht)
  | division l r _ _ =>
    rw [divisionDepth, Nat.lt_succ_iff]
    rcases eq_of_mem_treatedSides hs with rfl | rfl
    · exact le_max_left _ _
    · exact le_max_right _ _
  | parentheses e ih => exact ih hs
  | _ => exact absurd hs List.not_mem_nil

/-- The divisions of an exact tree are resolved if treating their sides leads to exact trees. -/
lemma exists_resolveDivisions {side : Expr → Traced Expr} {e : Expr} (he : e.isExact = true)
    (hside : ∀ s ∈ e.treatedSides, ∃ r, (side s).Yields (fun _ => True) r ∧ r.isExact = true) :
    ∃ flat, (resolveDivisions side e).Yields (fun _ => True) flat := by
  induction e using Expr.induction with
  | negation e ih =>
    obtain ⟨e', he'⟩ := ih ((hereditary_isExact.negation e).1 he) hside
    exact ⟨e'.negation, yields_resolveDivisions_negation_iff.2 ⟨e', he', rfl⟩⟩
  | nary op a b rest ih =>
    rw [hereditary_isExact.nary] at he
    obtain ⟨es, hes⟩ := exists_forall₂_of_forall fun t ht => ih t ht (he t ht) fun s hs =>
      hside s (mem_treatedSides_nary.2 ⟨t, ht, hs⟩)
    exact ⟨ofTerms op es, yields_resolveDivisions_nary_iff.2 ⟨es, hes, rfl⟩⟩
  | division l r _ _ =>
    have hfree : ∀ {e : Expr}, e.isExact = true → e.isDecimalFree = true :=
      fun h => isDecimalFree_of_isExact h
    obtain ⟨hl, hr⟩ := isExact_division_iff.1 he
    have hreduce := reduceQuotient?_eq (hfree hl) (hfree hr)
    cases hq : integerQuotient? l r with
    | some c => exact ⟨c, yields_resolveDivision_iff.2 (Or.inl (hreduce.trans (congrArg _ hq)))⟩
    | none =>
      rw [hq] at hreduce
      rw [treatedSides, hreduce, List.forall_mem_cons, List.forall_mem_singleton] at hside
      obtain ⟨⟨l', hl', hlexact⟩, r', hr', hrexact⟩ := hside
      by_cases hsame : (division l' r' == division l r) = true
      · refine ⟨division l r, yields_resolveDivision_iff.2 (Or.inr ⟨hreduce, l', r', hl', hr', ?_⟩)⟩
        rw [if_pos hsame]
      · refine ⟨(integerQuotient? l' r').getD (division l' r'),
          yields_resolveDivision_iff.2 (Or.inr ⟨hreduce, l', r', hl', hr', ?_⟩)⟩
        rw [if_neg hsame]
        exact reduceQuotient_eq (hfree hlexact) (hfree hrexact)
  | parentheses e ih => exact ih (isExact_parentheses_iff.1 he) hside
  | _ => exact ⟨_, Traced.yields_pure.2 rfl⟩

section Congruence

variable {side side' : Expr → Traced Expr}

/-- Resolving the divisions of all expressions only depends on what becomes of each of them. -/
lemma resolveDivisionsAll_congr {es : List Expr}
    (h : ∀ t ∈ es, resolveDivisions side t = resolveDivisions side' t) :
    resolveDivisionsAll side es = resolveDivisionsAll side' es := by
  induction es with
  | nil => rfl
  | cons t ts ih =>
    rw [List.forall_mem_cons] at h
    rw [resolveDivisionsAll, resolveDivisionsAll, h.1, ih h.2]

/-- Resolving divisions only depends on the treatment of these sides. -/
lemma resolveDivisions_congr {e : Expr} (h : ∀ s ∈ e.treatedSides, side s = side' s) :
    resolveDivisions side e = resolveDivisions side' e := by
  induction e using Expr.induction with
  | negation e ih => rw [resolveDivisions, resolveDivisions, ih h]
  | nary op a b rest ih =>
    have hsame : ∀ t ∈ a :: b :: rest, resolveDivisions side t = resolveDivisions side' t :=
      fun t ht => ih t ht fun s hs => h s (mem_treatedSides_nary.2 ⟨t, ht, hs⟩)
    simp only [List.forall_mem_cons] at hsame
    rw [resolveDivisions, resolveDivisions, hsame.1, hsame.2.1,
      resolveDivisionsAll_congr hsame.2.2]
  | division l r _ _ =>
    rw [resolveDivisions, resolveDivisions, resolveDivision, resolveDivision]
    rw [treatedSides] at h
    cases hquotient : reduceQuotient? l r with
    | error fault => rfl
    | ok quotient =>
      cases quotient with
      | some c => rfl
      | none =>
        rw [hquotient] at h
        rw [h l List.mem_cons_self, h r (List.mem_cons_of_mem l List.mem_cons_self)]
  | parentheses e ih => rw [resolveDivisions, resolveDivisions, ih h]
  | _ => rfl

/-- A step only depends on the treatment of the sides in the flattened tree. -/
lemma stepWith_congr {e : Expr} (h : ∀ s ∈ e.flatten.treatedSides, side s = side' s) :
    stepWith side e = stepWith side' e := by
  unfold stepWith
  rw [resolveDivisions_congr h]

/-- Whether steps lead from one tree to another. -/
def Reaches (side : Expr → Traced Expr) : Expr → Expr → Prop :=
  Relation.ReflTransGen fun e e' => (stepWith side e).result = .ok e'

/-- A run only depends on the treatment of the sides in the trees that it reaches. -/
lemma runWith_congr {e : Expr}
    (h : ∀ t, Reaches side e t → ∀ s ∈ t.flatten.treatedSides, side s = side' s) :
    runWith side e = runWith side' e := by
  have hrun : ∀ (steps : ℕ) (history : List Expr) (current : Expr), Reaches side e current →
      runFrom (stepWith side) e steps history current =
        runFrom (stepWith side') e steps history current := by
    intro steps
    induction steps with
    | zero =>
      intro history current _
      rw [runFrom, runFrom]
    | succ steps ih =>
      intro history current hcurrent
      rw [runFrom, runFrom, ← stepWith_congr (h current hcurrent)]
      exact congrArg _ (Traced.bind_congr_of_ok fun next hnext => ih _ next (hcurrent.tail hnext))
  exact hrun stepLimit [] e .refl

/-- Steps do not make divisions deeper if the treatment of sides is a rewriting. -/
lemma Reaches.divisionDepth_le
    (hside : ∀ e r, (side e).Yields (fun _ => True) r → Rewrites e r) {e t : Expr}
    (h : Reaches side e t) : t.divisionDepth ≤ e.divisionDepth := by
  induction h with
  | refl => exact le_rfl
  | tail _ hstep ih =>
    have hrewrites := rewrites_of_yields_stepWith hside (Traced.yields_true_iff.2 hstep)
    exact hrewrites.divisionDepth_le.trans ih

/-- Then treated sides in the trees that are reached have a lesser division depth. -/
lemma Reaches.divisionDepth_lt
    (hside : ∀ e r, (side e).Yields (fun _ => True) r → Rewrites e r) {e t s : Expr}
    (h : Reaches side e t) (hs : s ∈ t.flatten.treatedSides) :
    s.divisionDepth < e.divisionDepth :=
  calc s.divisionDepth < t.flatten.divisionDepth := divisionDepth_lt_of_mem_treatedSides hs
    _ ≤ t.divisionDepth := (rewrites_flatten t).divisionDepth_le
    _ ≤ e.divisionDepth := h.divisionDepth_le hside

/-- Whether two treatments of the sides of divisions agree below a division depth. -/
def AgreeBelow (depth : ℕ) (side side' : Expr → Traced Expr) : Prop :=
  ∀ e : Expr, e.divisionDepth < depth → side e = side' e

/-- So a run only depends on the treatment of trees that are less deep. -/
lemma AgreeBelow.runWith_eq {depth : ℕ} (hagree : AgreeBelow depth side side')
    (hside : ∀ e r, (side e).Yields (fun _ => True) r → Rewrites e r) {e : Expr}
    (he : e.divisionDepth ≤ depth) : runWith side e = runWith side' e :=
  runWith_congr fun _ ht s hs => hagree s ((ht.divisionDepth_lt hside hs).trans_le he)

end Congruence

/-! ### Levels -/

/-- Levels beyond the division depth do not matter. -/
lemma simplifyUpTo_eq {depth levels : ℕ} (hlevels : depth ≤ levels) {e : Expr}
    (he : e.divisionDepth ≤ depth) : simplifyUpTo levels e = simplifyUpTo depth e := by
  have hrewrites : ∀ (levels : ℕ) (e r : Expr),
      (simplifyUpTo levels e).Yields (fun _ => True) r → Rewrites e r :=
    fun _ _ _ => rewrites_of_yields_simplifyUpTo
  induction depth generalizing levels e with
  | zero =>
    cases levels with
    | zero => rfl
    | succ levels =>
      have hagree : AgreeBelow 0 (simplifyUpTo levels) pure :=
        fun s hs => absurd hs (Nat.not_lt_zero _)
      exact hagree.runWith_eq (hrewrites levels) he
  | succ depth ih =>
    cases levels with
    | zero => exact absurd hlevels (Nat.not_succ_le_zero depth)
    | succ levels =>
      have hagree : AgreeBelow (depth + 1) (simplifyUpTo levels) (simplifyUpTo depth) :=
        fun s hs => ih (Nat.le_of_succ_le_succ hlevels) (Nat.le_of_lt_succ hs)
      exact hagree.runWith_eq (hrewrites levels) he

/-- Simplification is a run in which the sides of divisions are simplified. -/
theorem simplifyTraced_eq_runWith (e : Expr) : e.simplifyTraced = runWith simplifyTraced e := by
  have hagree : AgreeBelow e.divisionDepth (simplifyUpTo e.divisionDepth) simplifyTraced :=
    fun s hs => simplifyUpTo_eq hs.le le_rfl
  calc e.simplifyTraced = simplifyUpTo (e.divisionDepth + 1) e :=
        (simplifyUpTo_eq (Nat.le_succ _) le_rfl).symm
    _ = runWith simplifyTraced e :=
        hagree.runWith_eq (fun _ _ => rewrites_of_yields_simplifyUpTo) le_rfl

/-- Simplifying is a rewriting. -/
lemma rewrites_of_yields_simplifyTraced {p : Simplify.Note → Prop} {e r : Expr}
    (h : e.simplifyTraced.Yields p r) : Rewrites e r :=
  rewrites_of_yields_simplifyUpTo h

end Expr

end TermAlgebra
