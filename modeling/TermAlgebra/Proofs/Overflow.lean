import Mathlib.Tactic
import TermAlgebra.Proofs.Runs

/-!
# Overflow

Simplification can only fail because of numbers that are too large: a whole number that meets a
decimal and is beyond the decimal numbers, or one with too many digits to be written
(`Expr.onlyOverflows_simplifyUpTo`).  In particular it never divides by zero: a quotient of
constants is reduced only if its divisor is not zero, and a whole number other than zero does not
become zero as a decimal (`Number.isZero_of_toDecimal`).  When it succeeds, the simplified tree can
be written (`Expr.isWritable_of_simplify`).
-/

namespace TermAlgebra

open Outcome (FailsOnly failsOnly_ok failsOnly_error)

/-- Whether a fault is one of a number that is too large for simplification. -/
def Fault.isOverflow : Fault → Bool
  | .integerTooLong | .integerBeyondDecimal => true
  | _ => false

/-- There are two faults of that kind. -/
lemma Fault.eq_of_isOverflow {fault : Fault} (h : fault.isOverflow = true) :
    fault = .integerTooLong ∨ fault = .integerBeyondDecimal := by
  unfold isOverflow at h
  split at h
  · exact Or.inl rfl
  · exact Or.inr rfl
  · exact nomatch h

/-- Whether a calculation can only fail because of a number that is too large. -/
abbrev OnlyOverflows {α : Type} (x : Except Fault α) : Prop :=
  FailsOnly (fun fault => fault.isOverflow = true) x

/-! ### Rounding whole numbers -/

/-- A whole number other than zero does not round to zero. -/
lemma Rounding.rank_pos {num : ℕ} (h : num ≠ 0) : 0 < rank num 1 := by
  have horder : -1 ≤ binaryOrder num 1 := by
    have hlog : (Nat.log2 1 : ℤ) = 0 := rfl
    rw [binaryOrder, hlog]
    split <;> omega
  -- The unit of the last place is far above the least one, so that the rank has a high part.
  have hexponent : 0 < (max (binaryOrder num 1 - (precision - 1 : ℕ)) leastExponent -
      leastExponent).toNat := by
    simp only [precision, leastExponent]
    omega
  rw [rank, if_neg h]
  refine lt_min (Nat.add_pos_right _ ?_) (by decide)
  exact Nat.mul_pos hexponent (Nat.pow_pos (by decide))

namespace Number

/-- A whole number can be too large for a decimal number. -/
lemma onlyOverflows_toDecimal (a : Number) : OnlyOverflows a.toDecimal := by
  cases a with
  | integer n =>
    rw [toDecimal]
    cases Decimal.ofInt? n with
    | none => exact failsOnly_error rfl
    | some d => exact failsOnly_ok d
  | decimal d => exact failsOnly_ok d

/-- A number other than zero does not become zero as a decimal number. -/
lemma isZero_of_toDecimal {a : Number} {d : Decimal} (ha : a.isZero = false)
    (h : a.toDecimal = .ok d) : d.isZero = false := by
  cases a with
  | integer n =>
    have hn : n.natAbs ≠ 0 := by simpa [isZero] using ha
    have hrank := Rounding.rank_pos hn
    rw [toDecimal, Decimal.ofInt?, Decimal.ofQuotient, Decimal.ofRank] at h
    by_cases hfinite : Rounding.rank n.natAbs 1 < Rounding.infinityRank
    · rw [dif_pos hfinite] at h
      obtain rfl := Except.ok.inj h
      exact decide_eq_false hrank.ne'
    · rw [dif_neg hfinite] at h
      simp at h
  | decimal e =>
    obtain rfl := Except.ok.inj h
    exact ha

/-- A sum or product can only overflow. -/
lemma onlyOverflows_apply (op : AssocOp) (a b : Number) : OnlyOverflows (op.apply a b) := by
  have hdecimal : ∀ combine : Decimal → Decimal → Decimal, OnlyOverflows (do
      return Number.decimal (combine (← a.toDecimal) (← b.toDecimal)) : Except Fault Number) :=
    fun combine => (onlyOverflows_toDecimal a).bind fun d _ =>
      (onlyOverflows_toDecimal b).bind fun e _ => failsOnly_ok _
  cases op with
  | sum =>
    rw [AssocOp.apply]
    unfold add
    split
    · exact failsOnly_ok _
    · exact hdecimal Decimal.add
  | product =>
    rw [AssocOp.apply]
    unfold mul
    split
    · exact failsOnly_ok _
    · exact hdecimal Decimal.mul

/-- A quotient by a number other than zero can only overflow, unless both numbers are whole. -/
lemma onlyOverflows_divide {a b : Number} (hb : b.isZero = false)
    (hdecimal : ∀ n m, a = integer n → b ≠ integer m) : OnlyOverflows (a.divide b) := by
  unfold divide
  split
  · exact absurd rfl (hdecimal _ _ rfl)
  · refine (onlyOverflows_toDecimal a).bind fun dividend _ => ?_
    refine (onlyOverflows_toDecimal b).bind fun divisor hdivisor => ?_
    rw [if_neg (by rw [isZero_of_toDecimal hb hdivisor]; decide)]
    exact failsOnly_ok _

end Number

namespace Expr

/-! ### Folding constants -/

/-- Calculating with several constants can only overflow. -/
lemma onlyOverflows_foldNumbers (op : AssocOp) (numbers : List Number) :
    OnlyOverflows (foldNumbers op numbers) := by
  cases numbers with
  | nil => exact failsOnly_ok none
  | cons first rest =>
    exact (Outcome.failsOnly_foldlM (Number.onlyOverflows_apply op) rest first).map some

/-- Folding the constants among terms can only overflow. -/
lemma onlyOverflows_foldTerms (op : AssocOp) (operands : List Expr) :
    OnlyOverflows (foldTerms op operands) := by
  unfold foldTerms
  dsimp only
  split
  · exact failsOnly_ok _
  · exact (onlyOverflows_foldNumbers op _).bind fun constant _ => failsOnly_ok _

/-- Reducing a quotient can only overflow: nothing is divided by zero. -/
lemma onlyOverflows_reduceQuotient? (l r : Expr) : OnlyOverflows (reduceQuotient? l r) := by
  unfold reduceQuotient?
  split
  · exact failsOnly_ok _
  · next hintegers =>
    split
    · next a b ha hb =>
      split
      · exact failsOnly_ok none
      · next hzero =>
        refine (Number.onlyOverflows_divide (Bool.eq_false_iff.2 hzero) ?_).map _
        rintro n m rfl rfl
        exact hintegers n m (constant?_eq_some_iff.1 ha) (constant?_eq_some_iff.1 hb)
    · exact failsOnly_ok none

/-- The same for a quotient that stays if it can not be reduced. -/
lemma onlyOverflows_reduceQuotient (l r : Expr) : OnlyOverflows (reduceQuotient l r) :=
  (onlyOverflows_reduceQuotient? l r).map _

/-- Folding constants can only overflow. -/
lemma onlyOverflows_foldConstants (e : Expr) : OnlyOverflows (foldConstants e) := by
  induction e using Expr.induction with
  | negation e ih => exact ih.bind fun e _ => onlyOverflows_foldTerms _ _
  | nary op a b rest ih =>
    simp only [List.forall_mem_cons] at ih
    rw [foldConstants, foldConstantsAll_eq_mapM]
    refine ih.1.bind fun a _ => ih.2.1.bind fun b _ => ?_
    exact (Outcome.failsOnly_mapM ih.2.2).bind fun rest _ => onlyOverflows_foldTerms op _
  | division l r hl hr =>
    exact hl.bind fun l _ => hr.bind fun r _ => onlyOverflows_reduceQuotient l r
  | parentheses e ih => exact ih
  | _ => exact failsOnly_ok _

/-! ### Collecting -/

/-- Collecting in several expressions can only overflow if it can only overflow in each. -/
lemma onlyOverflows_collectAllWith {again : Expr → Except Fault Expr} {es : List Expr}
    (h : ∀ e ∈ es, OnlyOverflows (collectWith again e)) :
    OnlyOverflows (collectAllWith again es) := by
  induction es with
  | nil => exact failsOnly_ok []
  | cons e es ih =>
    rw [List.forall_mem_cons] at h
    exact h.1.bind fun e _ => (ih h.2).bind fun es _ => failsOnly_ok (e :: es)

section Collecting

variable {again : Expr → Except Fault Expr} (hagain : ∀ e, OnlyOverflows (again e))

include hagain

/-- Collecting the terms of a sum can only overflow. -/
lemma onlyOverflows_collectSum (terms collected : List Expr) :
    OnlyOverflows (collectSum again terms collected) := by
  have hrecollect : ∀ f, OnlyOverflows (recollect again f) := fun f =>
    (hagain f.cofactor).bind fun cofactor _ =>
      (hagain f.remainder).bind fun remainder _ => onlyOverflows_foldConstants _
  refine (onlyOverflows_foldConstants _).bind fun plain _ => ?_
  exact (Outcome.failsOnly_mapM fun f _ => hrecollect f).bind fun sums _ => failsOnly_ok _

/-- Collecting can only overflow if the treatment of the parts of factored sums can only. -/
lemma onlyOverflows_collectWith (e : Expr) : OnlyOverflows (collectWith again e) := by
  induction e using Expr.induction with
  | negation e ih => exact ih.map negation
  | nary op a b rest ih =>
    have hrest : OnlyOverflows (collectAllWith again rest) := onlyOverflows_collectAllWith
      fun t ht => ih t (List.mem_cons_of_mem a (List.mem_cons_of_mem b ht))
    simp only [List.forall_mem_cons] at ih
    cases op with
    | sum =>
      exact ih.1.bind fun a _ => ih.2.1.bind fun b _ => hrest.bind fun rest _ =>
        onlyOverflows_collectSum hagain _ _
    | product =>
      exact ih.1.bind fun a _ => ih.2.1.bind fun b _ => hrest.bind fun rest _ => failsOnly_ok _
  | division l r hl hr => exact hl.bind fun l _ => hr.bind fun r _ => failsOnly_ok _
  | parentheses e ih => exact ih
  | _ => exact failsOnly_ok _

end Collecting

/-- Collecting can only overflow, however deep it goes. -/
lemma onlyOverflows_collectUpTo (size : ℕ) (e : Expr) : OnlyOverflows (collectUpTo size e) := by
  induction size generalizing e with
  | zero => exact failsOnly_ok e
  | succ size ih => exact onlyOverflows_collectWith ih e

/-! ### Divisions, steps and runs -/

/-- Resolving the divisions of several expressions can only overflow if it can only overflow in
each. -/
lemma onlyOverflows_resolveDivisionsAll {side : Expr → Traced Expr} {es : List Expr}
    (h : ∀ e ∈ es, OnlyOverflows (resolveDivisions side e).result) :
    OnlyOverflows (resolveDivisionsAll side es).result := by
  induction es with
  | nil => exact failsOnly_ok []
  | cons e es ih =>
    rw [List.forall_mem_cons] at h
    rw [resolveDivisionsAll, Traced.result_bind]
    refine h.1.bind fun e _ => ?_
    rw [Traced.result_bind]
    exact (ih h.2).bind fun es _ => failsOnly_ok (e :: es)

section Runs

variable {side : Expr → Traced Expr} (hside : ∀ e, OnlyOverflows (side e).result)

include hside

/-- Resolving a division can only overflow if the treatment of its sides can only. -/
lemma onlyOverflows_resolveDivision (l r : Expr) :
    OnlyOverflows (resolveDivision side l r).result := by
  rw [resolveDivision, Traced.result_bind]
  refine (onlyOverflows_reduceQuotient? l r).bind fun quotient _ => ?_
  cases quotient with
  | some constant => exact failsOnly_ok constant
  | none =>
    dsimp only
    rw [Traced.result_bind]
    refine (hside l).bind fun left _ => ?_
    rw [Traced.result_bind]
    refine (hside r).bind fun right _ => ?_
    split
    · exact failsOnly_ok _
    · exact onlyOverflows_reduceQuotient left right

/-- Resolving all divisions of an expression can only overflow. -/
lemma onlyOverflows_resolveDivisions (e : Expr) :
    OnlyOverflows (resolveDivisions side e).result := by
  induction e using Expr.induction with
  | negation e ih =>
    rw [resolveDivisions, Traced.result_bind]
    exact ih.bind fun e _ => failsOnly_ok _
  | nary op a b rest ih =>
    have hrest : OnlyOverflows (resolveDivisionsAll side rest).result :=
      onlyOverflows_resolveDivisionsAll
        fun t ht => ih t (List.mem_cons_of_mem a (List.mem_cons_of_mem b ht))
    simp only [List.forall_mem_cons] at ih
    rw [resolveDivisions, Traced.result_bind]
    refine ih.1.bind fun a _ => ?_
    rw [Traced.result_bind]
    refine ih.2.1.bind fun b _ => ?_
    rw [Traced.result_bind]
    exact hrest.bind fun rest _ => failsOnly_ok _
  | division l r => exact onlyOverflows_resolveDivision hside l r
  | parentheses e ih => exact ih
  | _ => exact failsOnly_ok _

/-- A step can only overflow. -/
lemma onlyOverflows_stepWith (e : Expr) : OnlyOverflows (stepWith side e).result := by
  rw [stepWith, Traced.result_bind]
  refine (onlyOverflows_resolveDivisions hside e.flatten).bind fun resolved _ => ?_
  dsimp only
  split
  · exact failsOnly_ok _
  · rw [Traced.result_bind]
    refine (onlyOverflows_foldConstants _).bind fun direct _ => ?_
    rw [Traced.result_bind]
    refine (onlyOverflows_collectUpTo _ _).bind fun collected _ => ?_
    rw [Traced.result_bind]
    refine (onlyOverflows_foldConstants collected).bind fun collected _ => ?_
    rw [Traced.result_bind]
    refine (failsOnly_ok ()).bind fun _ _ => ?_
    rw [Traced.result_bind]
    exact (onlyOverflows_foldConstants _).bind fun best _ => failsOnly_ok _

end Runs

/-- The simplest of some trees is found unless one of them is too long to be written. -/
lemma onlyOverflows_canonical (es : List Expr) : OnlyOverflows (canonical es) := by
  cases es with
  | nil => exact failsOnly_ok empty
  | cons first others =>
    rw [canonical]
    split
    · exact failsOnly_ok _
    · exact failsOnly_error rfl

/-- A run can only overflow if its steps can only. -/
lemma onlyOverflows_runFrom {step : Expr → Traced Expr}
    (hstep : ∀ e, OnlyOverflows (step e).result) (start : Expr) (steps : ℕ)
    (history : List Expr) (current : Expr) :
    OnlyOverflows (runFrom step start steps history current).result := by
  induction steps generalizing history current with
  | zero =>
    unfold runFrom
    split
    · exact onlyOverflows_canonical _
    · rw [Traced.result_bind]
      exact (failsOnly_ok ()).bind fun _ _ => onlyOverflows_canonical history
  | succ steps ih =>
    unfold runFrom
    split
    · exact onlyOverflows_canonical _
    · rw [Traced.result_bind]
      exact (hstep current).bind fun next _ => ih _ next

/-- Simplification can only overflow. -/
lemma onlyOverflows_simplifyUpTo (depth : ℕ) (e : Expr) :
    OnlyOverflows (simplifyUpTo depth e).result := by
  induction depth generalizing e with
  | zero =>
    have hside : ∀ e, OnlyOverflows (pure e : Traced Expr).result := fun e => failsOnly_ok e
    exact onlyOverflows_runFrom (onlyOverflows_stepWith hside) e stepLimit [] e
  | succ depth ih => exact onlyOverflows_runFrom (onlyOverflows_stepWith ih) e stepLimit [] e

/-! ### Results that can be written -/

/-- The simplest of some trees can be written. -/
lemma isWritable_of_canonical_eq {es : List Expr} {r : Expr} (h : canonical es = .ok r) :
    r.isWritable = true := by
  cases es with
  | nil =>
    obtain rfl := Except.ok.inj h
    rfl
  | cons first others =>
    exact isWritable_of_canonical h r (canonical_mem (List.cons_ne_nil first others) h)

/-- The result of a run can be written. -/
lemma isWritable_of_runWith {side : Expr → Traced Expr} {e r : Expr}
    (h : (runWith side e).result = .ok r) : r.isWritable = true := by
  obtain ⟨visited, next, hvisits⟩ :=
    exists_visits_of_yields_runWith (Traced.yields_true_iff.2 h)
  rcases hvisits.ends with ⟨-, hr⟩ | ⟨-, -, hr⟩
  · exact isWritable_of_canonical_eq hr
  · exact isWritable_of_canonical_eq hr

/-- A simplified expression can be written. -/
lemma isWritable_of_simplify {e r : Expr} (h : e.simplify = .ok r) : r.isWritable = true := by
  unfold simplify simplifyTraced at h
  cases hdepth : e.divisionDepth with
  | zero => exact isWritable_of_runWith (hdepth ▸ h)
  | succ depth => exact isWritable_of_runWith (hdepth ▸ h)

end Expr

end TermAlgebra
