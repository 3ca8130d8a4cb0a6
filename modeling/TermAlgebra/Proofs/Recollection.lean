import Mathlib.Tactic
import TermAlgebra.Proofs.CommonFactors
import TermAlgebra.Proofs.Termination

/-!
# The recursion of collecting

Why collecting common factors comes to an end, although it treats trees that are no parts of the
tree at hand.

`Collects` lists what collecting an expression treats in turn: its parts, and for a sum the cofactor
and the remainder of each factorization that is tried.  All of these have fewer nodes that are no
constants (`Collects.openSize_lt`), so that there is no endless chain of them
(`wellFounded_collects`), and collecting is determined by its results on them
(`collect_eq_collectOnce`).  Without decimals it also succeeds (`collect_terminates`).
-/

namespace TermAlgebra.Expr

/-- What collecting an expression treats in turn. -/
inductive Collects : Expr → Expr → Prop
  | term {op : AssocOp} {a b t : Expr} {rest : List Expr} (h : t ∈ a :: b :: rest) :
    Collects (nary op a b rest) t
  | operand (e : Expr) : Collects (negation e) e
  | left (l r : Expr) : Collects (division l r) l
  | right (l r : Expr) : Collects (division l r) r
  | inner (e : Expr) : Collects (parentheses e) e
  | cofactor {a b : Expr} {rest : List Expr} {F : Factorization}
    (h : F ∈ usefulFactorizations (a :: b :: rest)) : Collects (sum a b rest) F.cofactor
  | remainder {a b : Expr} {rest : List Expr} {F : Factorization}
    (h : F ∈ usefulFactorizations (a :: b :: rest)) : Collects (sum a b rest) F.remainder

/-- Collecting an expression, where all that is treated in turn is treated by `again`. -/
def collectOnce (again : Expr → Except Fault Expr) : Expr → Except Fault Expr
  | sum a b rest => do
    let collected ← (a :: b :: rest).mapM again
    collectSum again (a :: b :: rest) collected
  | product a b rest => do
    let collected ← (a :: b :: rest).mapM again
    return gather .product (merged .product collected)
  | negation e => negation <$> again e
  | division l r => do
    let l ← again l
    return division l (← again r)
  | parentheses e => again e
  | e => .ok e

/-- What is treated in turn has fewer nodes that are no constants. -/
lemma Collects.openSize_lt {e s : Expr} (h : Collects e s) : s.openSize < e.openSize := by
  cases h with
  | term h =>
    rw [openSize_nary]
    exact Nat.lt_succ_of_le (openSize_le_openSizeAll h)
  | operand => exact Nat.lt_succ_self _
  | left l r =>
    rw [openSize]
    omega
  | right l r =>
    rw [openSize]
    omega
  | inner => exact Nat.lt_succ_self _
  | cofactor h => exact (openSize_parts_lt (List.mem_filter.1 h).1).1
  | remainder h => exact (openSize_parts_lt (List.mem_filter.1 h).1).2

/-- There is no endless chain of expressions that are treated in turn. -/
lemma wellFounded_collects : WellFounded fun s e : Expr => Collects e s :=
  Subrelation.wf Collects.openSize_lt (measure openSize).wf

variable {again again' : Expr → Except Fault Expr}

/-- One level of collecting only depends on what is treated in turn. -/
lemma collectOnce_congr {e : Expr} (h : ∀ s, Collects e s → again s = again' s) :
    collectOnce again e = collectOnce again' e := by
  cases e with
  | nary op a b rest =>
    have hterms : (a :: b :: rest).mapM again = (a :: b :: rest).mapM again' :=
      Outcome.mapM_congr fun t ht => h t (.term ht)
    cases op with
    | sum =>
      have hsum : ∀ collected, collectSum again (a :: b :: rest) collected =
          collectSum again' (a :: b :: rest) collected :=
        collectSum_congr_of_useful fun F hF => ⟨h _ (.cofactor hF), h _ (.remainder hF)⟩
      simp only [collectOnce, hterms, hsum]
    | product => simp only [collectOnce, hterms]
  | negation e => rw [collectOnce, collectOnce, h e (.operand e)]
  | division l r => rw [collectOnce, collectOnce, h l (.left l r), h r (.right l r)]
  | parentheses e => exact h e (.inner e)
  | _ => rfl

/-- Collecting satisfies an equation in which all that is treated in turn is collected. -/
lemma collect_eq_collectOnce (e : Expr) : e.collect = collectOnce collect e := by
  have hwith : ∀ t : Expr, collectWith collect t = t.collect :=
    fun t => (collect_eq_collectWith t).symm
  rw [collect_eq_collectWith]
  cases e with
  | nary op a b rest =>
    have hrest : collectAllWith collect rest = rest.mapM collect := by
      rw [collectAllWith_eq_mapM]
      exact Outcome.mapM_congr fun t _ => hwith t
    cases op with
    | sum =>
      simp only [collectWith, collectOnce, hwith, hrest, List.mapM_cons, bind_assoc, pure_bind]
    | product =>
      simp only [collectWith, collectOnce, hwith, hrest, List.mapM_cons, bind_assoc, pure_bind]
  | negation e => rw [collectWith, collectOnce, hwith]
  | division l r => simp only [collectWith, collectOnce, hwith]
  | parentheses e => exact hwith e
  | _ => rfl

/-- Both parts of every factorization that is tried on a sum, and all else that collecting treats in
turn, have fewer nodes that are no constants.  So collecting ends: there is no endless chain of
expressions that are treated in turn, the results on them determine the result, and without
decimals there is one. -/
theorem collect_terminates (e : Expr) :
    (∀ F ∈ e.factorizations, F.cofactor.isNary .sum = true →
      F.cofactor.openSize < e.openSize ∧ F.remainder.openSize < e.openSize) ∧
    (∀ s, Collects e s → s.openSize < e.openSize) ∧
    Acc (fun s t => Collects t s) e ∧
    (∀ again, (∀ s, Collects e s → again s = s.collect) → collectOnce again e = e.collect) ∧
    (e.isDecimalFree = true → ∃ r, e.collect = .ok r) := by
  refine ⟨fun F hF hsum => ?_, fun s => Collects.openSize_lt, wellFounded_collects.apply e,
    fun again h => ?_, fun hfree => ?_⟩
  · obtain ⟨a, b, rest, rfl, hF⟩ := exists_of_mem_factorizations hF
    have huseful : F ∈ usefulFactorizations (a :: b :: rest) := List.mem_filter.2 ⟨hF, hsum⟩
    exact ⟨(Collects.cofactor huseful).openSize_lt, (Collects.remainder huseful).openSize_lt⟩
  · rw [collectOnce_congr h, ← collect_eq_collectOnce]
  · obtain ⟨r, hr, -⟩ := exists_collectUpTo e.openSize e hfree
    exact ⟨r, hr⟩

/-- For instance a factor of a negated and of a plain product, beside an empty term and one in
parentheses. -/
theorem collect_terminates_signed :
    let s := sum (negation (product (var "x") (var "y") [])) empty
      [product (integer 2) (var "x") [], parentheses (var "z")]
    let byX : Factorization :=
      ⟨var "x", sum (negation (var "y")) (integer 2) [], parentheses (var "z")⟩
    s.factorizations.head? = some byX ∧
    (byX.cofactor.openSize < s.openSize ∧ byX.remainder.openSize < s.openSize) ∧
    ∃ r, s.collect = .ok r := by
  intro s byX
  have hhead : s.factorizations.head? = some byX := rfl
  obtain ⟨hparts, -, -, -, hcollect⟩ := collect_terminates s
  exact ⟨hhead, hparts byX (List.mem_of_mem_head? hhead) rfl, hcollect rfl⟩

end TermAlgebra.Expr
