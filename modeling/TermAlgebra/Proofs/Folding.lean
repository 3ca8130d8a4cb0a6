import Mathlib.Tactic
import TermAlgebra.Proofs.Value

/-!
# Folding constants without decimals

Folding the constants of terms without decimals always succeeds.  Its result (`folded`) is the
integer zero for a product with a factor zero, and otherwise gathers the remaining terms behind the
sum or product of the integers (`foldTerms_eq`).  It has the value of the terms (`value_folded`).

Likewise the quotient of two expressions without decimals is reduced exactly if both are integers of
which the right one is positive and divides the left one (`reduceQuotient?_eq`).
-/

namespace TermAlgebra.Expr

/-! ### The folded constant -/

/-- The value of an integer constant. -/
def integer? : Expr → Option ℤ
  | integer n => some n
  | _ => none

/-- The result of an operation on the integers among some terms, if there are any. -/
def foldedConstant (op : AssocOp) (terms : List Expr) : Option Number :=
  match terms.filterMap integer? with
  | [] => none
  | n :: ns => some (.integer (op.total (n :: ns)))

/-- What folding builds of terms without decimals. -/
def folded (op : AssocOp) (terms : List Expr) : Expr :=
  if op = .product && terms.any isZeroConstant then integer 0
  else gather op (foldedTerms op (foldedConstant op terms) terms)

/-- Only integers have an integer value. -/
lemma integer?_eq_some_iff {e : Expr} {n : ℤ} : e.integer? = some n ↔ e = integer n := by
  cases e <;> simp [integer?]

/-- Without decimals constants are integers. -/
lemma constant?_eq_integer? {e : Expr} (h : e.isDecimalFree = true) :
    e.constant? = e.integer?.map .integer := by
  cases e with
  | decimal d => simp [isDecimalFree, consistsOf] at h
  | _ => rfl

/-- An operation on two integers is their sum or product. -/
lemma apply_integer (op : AssocOp) (n m : ℤ) :
    op.apply (.integer n) (.integer m) = .ok (.integer (op.total [n, m])) := by
  cases op <;> simp [AssocOp.apply, Number.add, Number.mul]

/-- An operation on integers is their sum or product. -/
lemma foldlM_integer (op : AssocOp) (n : ℤ) (ns : List ℤ) :
    (ns.map Number.integer).foldlM op.apply (.integer n) =
      .ok (.integer (op.total (n :: ns))) := by
  induction ns generalizing n with
  | nil =>
    rw [AssocOp.total_singleton]
    rfl
  | cons m ns ih =>
    rw [List.map_cons, List.foldlM_cons, apply_integer]
    refine (ih _).trans ?_
    rw [AssocOp.total_cons, AssocOp.total_cons op n, AssocOp.total_cons op m]
    cases op <;> simp [add_assoc, mul_assoc]

/-- Without decimals folding the constants gives the result on the integers. -/
lemma foldNumbers_eq (op : AssocOp) {terms : List Expr}
    (h : ∀ t ∈ terms, t.isDecimalFree = true) :
    foldNumbers op (terms.filterMap constant?) = .ok (foldedConstant op terms) := by
  have hconstants : terms.filterMap constant? = (terms.filterMap integer?).map .integer := by
    rw [List.map_filterMap]
    exact List.filterMap_congr fun t ht => constant?_eq_integer? (h t ht)
  rw [hconstants, foldedConstant]
  cases terms.filterMap integer? with
  | nil => rfl
  | cons n ns =>
    rw [List.map_cons, foldNumbers, foldlM_integer]
    rfl

/-- Without decimals folding always succeeds. -/
lemma foldTerms_eq (op : AssocOp) {es : List Expr} (h : ∀ e ∈ es, e.isDecimalFree = true) :
    foldTerms op es = .ok (folded op (merged op es)) := by
  have hterms := (hereditary_isDecimalFree.merged op es).2 h
  rw [foldTerms, folded]
  split
  · rfl
  · exact gatherFolded_eq_ok_iff.2 ⟨_, foldNumbers_eq op hterms, rfl⟩

/-- What folding leaves of terms that exist. -/
lemma foldedTerms_foldedConstant_ne_nil (op : AssocOp) {terms : List Expr} (hne : terms ≠ [])
    (h : ∀ t ∈ terms, t.isDecimalFree = true) :
    foldedTerms op (foldedConstant op terms) terms ≠ [] :=
  foldedTerms_ne_nil hne (foldNumbers_eq op h)

/-- Only the integer zero is a constant of value zero without decimals. -/
lemma isZeroConstant_iff {e : Expr} (h : e.isDecimalFree = true) :
    e.isZeroConstant = true ↔ e = integer 0 := by
  cases e with
  | decimal d => simp [isDecimalFree, consistsOf] at h
  | integer n => simp [isZeroConstant, constant?, Number.isZero]
  | _ => simp [isZeroConstant, constant?]

/-! ### The value of folded terms -/

section Value

variable {ρ : String → ℚ} {terms : List Expr}

/-- The constants among terms without decimals are the integers. -/
lemma map_filter_isConstant {α : Type} (f : Expr → α) (h : ∀ t ∈ terms, t.isDecimalFree = true) :
    (terms.filter isConstant).map f = (terms.filterMap integer?).map fun n => f (integer n) := by
  induction terms with
  | nil => rfl
  | cons t terms ih =>
    have hrest := ih fun u hu => h u (List.mem_cons_of_mem t hu)
    have ht := h t List.mem_cons_self
    cases t with
    | decimal d => simp [isDecimalFree, consistsOf] at ht
    | integer n =>
      rw [List.filter_cons_of_pos rfl, List.map_cons, hrest]
      rfl
    | _ => rw [List.filter_cons_of_neg (by simp [isConstant]), List.filterMap_cons_none rfl, hrest]

/-- An operation on terms is one on the integers among them and one on the others. -/
lemma total_map_terms {R : Type} [CommSemiring R] (op : AssocOp) (f : Expr → R)
    (h : ∀ t ∈ terms, t.isDecimalFree = true) :
    op.total (terms.map f) =
      op.total [op.total ((terms.filterMap integer?).map fun n => f (integer n)),
        op.total ((terms.filter fun e => !e.isConstant).map f)] := by
  have hperm := (List.filter_append_perm isConstant terms).map f
  rw [← op.total_perm hperm, List.map_append, AssocOp.total_append, map_filter_isConstant f h]

/-- An integer that can be left out is the result on no terms. -/
lemma isUnit_integer_iff {op : AssocOp} {n : ℤ} :
    op.isUnit (.integer n) = true ↔ n = op.total [] := by
  cases op <;> simp [AssocOp.isUnit, Number.isZero, Number.isOne]

/-- The terms that folding leaves have the value of all the terms. -/
lemma total_foldedTerms (op : AssocOp) (h : ∀ t ∈ terms, t.isDecimalFree = true) :
    op.total ((foldedTerms op (foldedConstant op terms) terms).map (value ρ)) =
      op.total (terms.map (value ρ)) := by
  have hcast : op.total ((terms.filterMap integer?).map fun n => (integer n).value ρ) =
      ((op.total (terms.filterMap integer?) : ℤ) : ℚ) :=
    (op.map_total (Int.castRingHom ℚ) _).symm
  rw [total_map_terms op (value ρ) h, hcast, foldedTerms, foldedConstant]
  cases hints : terms.filterMap integer? with
  | nil =>
    simp only [Option.any_none, Bool.and_false, Bool.false_eq_true, if_false, Option.map_none,
      Option.toList_none, List.nil_append]
    cases op <;> simp
  | cons n ns =>
    simp only [Option.any_some, Bool.and_eq_true, isUnit_integer_iff]
    split
    · next hunit =>
      rw [hunit.2]
      cases op <;> simp
    · simp only [Option.map_some, Option.toList_some, List.singleton_append, List.map_cons,
        ofNumber, value]
      rw [AssocOp.total_cons]

/-- Folding does not change the value of terms. -/
lemma value_folded (op : AssocOp) (hne : terms ≠ []) (h : ∀ t ∈ terms, t.Defined ρ) :
    (folded op terms).value ρ = op.total (terms.map (value ρ)) := by
  have hfree : ∀ t ∈ terms, t.isDecimalFree = true :=
    fun t ht => isDecimalFree_of_isExact (isExact_of_defined (h t ht))
  rw [folded]
  split
  · next hzero =>
    rw [Bool.and_eq_true, decide_eq_true_eq, List.any_eq_true] at hzero
    obtain ⟨rfl, t, ht, hzero⟩ := hzero
    rw [(isZeroConstant_iff (hfree t ht)).1 hzero] at ht
    have hmem : (0 : ℚ) ∈ terms.map (value ρ) :=
      List.mem_map.2 ⟨_, ht, by simp [value]⟩
    rw [AssocOp.total_product, List.prod_eq_zero hmem, value, Int.cast_zero]
  · rw [value_gather op (foldedTerms_foldedConstant_ne_nil _ hne hfree), total_foldedTerms op hfree]
    intro t ht
    rcases mem_foldedTerms ht with ⟨n, hn, rfl⟩ | ht
    · cases n with
      | integer n => trivial
      | decimal d =>
        rw [foldedConstant] at hn
        split at hn <;> simp at hn
    · exact h t ht.1

end Value

/-! ### Quotients -/

/-- The integer that a quotient of integers reduces to. -/
def integerQuotient? : Expr → Expr → Option Expr
  | integer a, integer b => if divides b a then some (integer (a / b)) else none
  | _, _ => none

/-- Without decimals only quotients of integers are reduced. -/
lemma reduceQuotient?_eq {l r : Expr} (hl : l.isDecimalFree = true)
    (hr : r.isDecimalFree = true) : reduceQuotient? l r = .ok (integerQuotient? l r) := by
  cases l with
  | decimal d => simp [isDecimalFree, consistsOf] at hl
  | integer a =>
    cases r with
    | decimal d => simp [isDecimalFree, consistsOf] at hr
    | _ => rfl
  | _ => rfl

/-- Without decimals reducing a quotient always succeeds. -/
lemma reduceQuotient_eq {l r : Expr} (hl : l.isDecimalFree = true)
    (hr : r.isDecimalFree = true) :
    reduceQuotient l r = .ok ((integerQuotient? l r).getD (division l r)) := by
  rw [reduceQuotient, reduceQuotient?_eq hl hr]
  rfl

/-- A reduced quotient of integers is exact. -/
lemma integerQuotient?_eq_some_iff {l r q : Expr} :
    integerQuotient? l r = some q ↔
      ∃ a b : ℤ, l = integer a ∧ r = integer b ∧ 0 < b ∧ b ∣ a ∧ q = integer (a / b) := by
  constructor
  · intro h
    unfold integerQuotient? at h
    split at h
    · next a b =>
      split at h
      · next hdvd =>
        obtain ⟨hb, hdvd⟩ := divides_iff.1 hdvd
        exact ⟨a, b, rfl, rfl, hb, hdvd, (Option.some.inj h).symm⟩
      · simp at h
    · simp at h
  · rintro ⟨a, b, rfl, rfl, hb, hdvd, rfl⟩
    rw [integerQuotient?, if_pos (divides_iff.2 ⟨hb, hdvd⟩)]

end TermAlgebra.Expr
