import Mathlib.Tactic
import TermAlgebra.Proofs.Collecting
import TermAlgebra.Proofs.Nesting
import TermAlgebra.Proofs.Overflow

/-!
# Magnitudes

How large the integers in an exact tree can become.

The magnitude of a tree is what it comes to when all variables are one, all integers are without
sign and at least one, no sign changes anything, and dividing is multiplying.  It bounds the
integers in the tree, so that a tree can be written if its magnitude can
(`IsModerate.isWritable`).  It is put together like a value (`interprets_magnitude`), so that
expanding and taking out factors do not change it; folding constants makes it no larger, and so
rewriting never does (`Rewrites.magnitude_le`).  Hence with the magnitude of a tree all trees that
are met in its simplification can be written, and this succeeds (`exists_simplify_of_magnitude`).
-/

namespace TermAlgebra

/-- What is closer to zero than a number that can be written can be written. -/
lemma Numeral.fits_of_natAbs_le {n m : ℤ} (h : n.natAbs ≤ m.natAbs) (hm : fits m = true) :
    fits n = true := by
  rw [fits, decide_eq_true_eq] at hm ⊢
  exact h.trans_lt hm

/-! ### Totals of natural numbers -/

namespace AssocOp

variable {op : AssocOp}

/-- Larger numbers have a larger total. -/
lemma total_pair_le {a b c d : ℕ} (hac : a ≤ c) (hbd : b ≤ d) :
    op.total [a, b] ≤ op.total [c, d] := by
  cases op with
  | sum => simpa using Nat.add_le_add hac hbd
  | product => simpa using Nat.mul_le_mul hac hbd

/-- Each of some positive numbers is at most their total. -/
lemma le_total_of_mem {xs : List ℕ} (hpos : ∀ x ∈ xs, 1 ≤ x) {x : ℕ} (hx : x ∈ xs) :
    x ≤ op.total xs := by
  cases op with
  | sum => exact List.single_le_sum (fun _ _ => Nat.zero_le _) x hx
  | product => exact List.single_le_prod hpos x hx

end AssocOp

namespace Expr

/-! ### The magnitude of an expression -/

mutual

/-- The value of an expression with all variables one, all integers without sign and at least one,
no sign counted and products for divisions. -/
def magnitude : Expr → ℕ
  | empty => 0
  | integer n => max 1 n.natAbs
  | decimal _ => 1
  | var _ => 1
  | negation e => magnitude e
  | nary op a b rest => op.total (magnitude a :: magnitude b :: magnitudes rest)
  | division l r => magnitude l * magnitude r
  | parentheses e => magnitude e

/-- The magnitudes of all the expressions. -/
def magnitudes : List Expr → List ℕ
  | [] => []
  | e :: es => magnitude e :: magnitudes es

end

/-- The magnitudes are taken item by item. -/
lemma magnitudes_eq_map (es : List Expr) : magnitudes es = es.map magnitude := by
  induction es with
  | nil => rfl
  | cons e es ih => rw [magnitudes, ih, List.map_cons]

/-- The magnitude of a node of an operation is the total of those of its terms. -/
lemma magnitude_nary (op : AssocOp) (a b : Expr) (rest : List Expr) :
    (nary op a b rest).magnitude = op.total ((a :: b :: rest).map magnitude) := by
  rw [magnitude, magnitudes_eq_map, List.map_cons, List.map_cons]

/-- Magnitudes are put together like values, except that signs do not matter. -/
lemma interprets_magnitude : Interprets 1 magnitude where
  sign_mul_sign := one_mul 1
  empty := rfl
  one := rfl
  negation _ := (one_mul _).symm
  nary := magnitude_nary

/-- The magnitude of an exact tree is positive. -/
lemma one_le_magnitude {e : Expr} (he : e.isExact = true) : 1 ≤ e.magnitude := by
  induction e using Expr.induction with
  | empty => exact Bool.noConfusion he
  | integer n => exact le_max_left 1 _
  | decimal d => exact le_rfl
  | var s => exact le_rfl
  | negation e ih => exact ih ((hereditary_isExact.negation e).1 he)
  | nary op a b rest ih =>
    rw [hereditary_isExact.nary] at he
    have hpos : ∀ x ∈ (a :: b :: rest).map magnitude, 1 ≤ x :=
      List.forall_mem_map.2 fun t ht => ih t ht (he t ht)
    rw [magnitude_nary]
    exact (ih a List.mem_cons_self (he a List.mem_cons_self)).trans
      (AssocOp.le_total_of_mem hpos List.mem_cons_self)
  | division l r hl hr =>
    rw [isExact_division_iff] at he
    exact Nat.mul_pos (hl he.1) (hr he.2)
  | parentheses e ih => exact ih (isExact_parentheses_iff.1 he)

/-- The terms of an exact node are not larger than the node. -/
lemma magnitude_le_of_mem {op : AssocOp} {a b t : Expr} {rest : List Expr}
    (he : (nary op a b rest).isExact = true) (ht : t ∈ a :: b :: rest) :
    t.magnitude ≤ (nary op a b rest).magnitude := by
  rw [hereditary_isExact.nary] at he
  rw [magnitude_nary]
  exact AssocOp.le_total_of_mem
    (List.forall_mem_map.2 fun t ht => one_le_magnitude (he t ht)) (List.mem_map_of_mem ht)

/-- The sides of an exact division are not larger than the division. -/
lemma magnitude_sides_le {l r : Expr} (he : (division l r).isExact = true) :
    l.magnitude ≤ (division l r).magnitude ∧ r.magnitude ≤ (division l r).magnitude := by
  rw [isExact_division_iff] at he
  exact ⟨Nat.le_mul_of_pos_right _ (one_le_magnitude he.2),
    Nat.le_mul_of_pos_left _ (one_le_magnitude he.1)⟩

/-! ### Folding -/

/-- The sum or product of some integers has at most the total of their magnitudes. -/
lemma magnitude_total_le (op : AssocOp) {ns : List ℤ} (hne : ns ≠ []) :
    (integer (op.total ns)).magnitude ≤ op.total (ns.map fun n => (integer n).magnitude) := by
  have hpair : ∀ n m : ℤ, (integer (op.total [n, m])).magnitude ≤
      op.total [(integer n).magnitude, (integer m).magnitude] := by
    intro n m
    cases op with
    | sum =>
      simp only [magnitude, AssocOp.total_sum, List.sum_cons, List.sum_nil, add_zero]
      have hadd := Int.natAbs_add_le n m
      omega
    | product =>
      simp only [magnitude, AssocOp.total_product, List.prod_cons, List.prod_nil, mul_one,
        Int.natAbs_mul]
      exact max_le (Nat.mul_pos (le_max_left 1 _) (le_max_left 1 _))
        (Nat.mul_le_mul (le_max_right 1 _) (le_max_right 1 _))
  induction ns with
  | nil => exact absurd rfl hne
  | cons n ns ih =>
    by_cases hns : ns = []
    · rw [hns, List.map_singleton, AssocOp.total_singleton, AssocOp.total_singleton]
    · rw [AssocOp.total_cons, List.map_cons, AssocOp.total_cons _ (integer n).magnitude]
      exact (hpair n _).trans (AssocOp.total_pair_le le_rfl (ih hns))

/-- The terms that folding leaves have at most the total magnitude of all the terms. -/
lemma total_magnitude_foldedTerms_le (op : AssocOp) {terms : List Expr}
    (h : ∀ t ∈ terms, t.isExact = true) :
    op.total ((foldedTerms op (foldedConstant op terms) terms).map magnitude) ≤
      op.total (terms.map magnitude) := by
  have hfree : ∀ t ∈ terms, t.isDecimalFree = true :=
    fun t ht => isDecimalFree_of_isExact (h t ht)
  rw [total_map_terms op magnitude hfree, foldedTerms, foldedConstant]
  cases hints : terms.filterMap integer? with
  | nil =>
    simp only [Option.any_none, Bool.and_false, Bool.false_eq_true, if_false, Option.map_none,
      Option.toList_none, List.nil_append]
    cases op <;> simp
  | cons n ns =>
    have hconstant := magnitude_total_le op (List.cons_ne_nil n ns)
    simp only [Option.any_some, Bool.and_eq_true, isUnit_integer_iff]
    split
    · simp only [Option.map_none, Option.toList_none, List.nil_append]
      have hpos : 1 ≤ op.total ((n :: ns).map fun n => (integer n).magnitude) :=
        (one_le_magnitude rfl).trans hconstant
      cases op with
      | sum => simp
      | product => simpa using Nat.le_mul_of_pos_left _ hpos
    · simp only [Option.map_some, Option.toList_some, List.singleton_append, List.map_cons,
        ofNumber]
      rw [AssocOp.total_cons]
      exact AssocOp.total_pair_le hconstant le_rfl

/-- Folding the constants among exact terms does not make them larger. -/
lemma magnitude_folded_le (op : AssocOp) {terms : List Expr} (hne : terms ≠ [])
    (h : ∀ t ∈ terms, t.isExact = true) :
    (folded op terms).magnitude ≤ op.total (terms.map magnitude) := by
  have hfree : ∀ t ∈ terms, t.isDecimalFree = true :=
    fun t ht => isDecimalFree_of_isExact (h t ht)
  have hexact : (ofTerms op terms).isExact = true := (hereditary_isExact.ofTerms op hne).2 h
  rw [folded]
  split
  · rw [← interprets_magnitude.ofTerms op hne]
    exact one_le_magnitude hexact
  · refine le_of_eq_of_le ?_ (total_magnitude_foldedTerms_le op h)
    refine interprets_magnitude.gather op (foldedTerms_foldedConstant_ne_nil _ hne hfree) ?_
    intro t ht
    rcases mem_foldedTerms ht with ⟨n, hn, rfl⟩ | ht
    · cases n with
      | integer n => rfl
      | decimal d =>
        rw [foldedConstant] at hn
        split at hn <;> simp at hn
    · exact h t ht.1

/-- Reducing an exact quotient does not make it larger. -/
lemma magnitude_reduceQuotient_le {l r q : Expr} (he : (division l r).isExact = true)
    (h : reduceQuotient l r = .ok q) : q.magnitude ≤ (division l r).magnitude := by
  have hsides := isExact_division_iff.1 he
  rw [reduceQuotient_eq (isDecimalFree_of_isExact hsides.1) (isDecimalFree_of_isExact hsides.2),
    Except.ok.injEq] at h
  cases hq : integerQuotient? l r with
  | none =>
    rw [hq, Option.getD_none] at h
    rw [← h]
  | some c =>
    rw [hq, Option.getD_some] at h
    obtain ⟨a, b, rfl, rfl, -, -, rfl⟩ := integerQuotient?_eq_some_iff.1 hq
    have hle : (a / b).natAbs ≤ a.natAbs := Int.natAbs_ediv_le_natAbs a b
    rw [← h]
    exact (max_le_max le_rfl hle).trans (magnitude_sides_le he).1

/-! ### Rewriting -/

/-- Taking out common factors does not change the magnitude of a sum. -/
lemma magnitude_unmerged {es : List Expr} (hes : ∀ e ∈ es, e.isExact = true) {F : Factorization}
    (hF : F ∈ factorizationsOf es) : F.unmerged.magnitude = (es.map magnitude).sum := by
  obtain ⟨f, hf, rfl⟩ := mem_factorizationsOf.1 hF
  rw [← interprets_magnitude.factorizationBy hes hf, Factorization.unmerged,
    interprets_magnitude.ofTerms .sum (List.cons_ne_nil _ _)]
  split
  · next hempty =>
    rw [isEmpty_iff.1 hempty]
    simp [magnitude, magnitudes]
  · simp [magnitude, magnitudes]

/-- Rewriting an exact tree does not make it larger. -/
theorem Rewrites.magnitude_le {e e' : Expr} (h : Rewrites e e') (he : e.isExact = true) :
    e'.magnitude ≤ e.magnitude := by
  have hI := interprets_magnitude
  have hQ := hereditary_isExact
  induction h with
  | refl e => exact le_rfl
  | trans hab _ ihab ihbc => exact (ihbc (hab.isExact he)).trans (ihab he)
  | negation _ ih => exact ih ((hQ.negation _).1 he)
  | division _ _ hl hr =>
    rw [isExact_division_iff] at he
    exact Nat.mul_le_mul (hl he.1) (hr he.2)
  | term op before after _ ih =>
    rw [hQ.ofTerms op (by simp)] at he
    rw [hI.ofTerms op (by simp), hI.ofTerms op (by simp)]
    have ht := ih (he _ (by simp))
    rw [List.map_append, List.map_append, List.map_cons, List.map_cons, AssocOp.total_append,
      AssocOp.total_append _ _ (_ :: _), AssocOp.total_cons _ (magnitude _),
      AssocOp.total_cons _ (magnitude _) (after.map magnitude)]
    exact AssocOp.total_pair_le le_rfl (AssocOp.total_pair_le ht le_rfl)
  | unwrap e => exact le_rfl
  | sign e => simp [magnitude, magnitudes]
  | merge op hne =>
    rw [hI.ofTerms op (merged_ne_nil op hne), hI.merged, hI.ofTerms op hne]
  | gather op hne => rw [hI.gather op hne ((hQ.ofTerms op hne).1 he), hI.ofTerms op hne]
  | distribute hne =>
    rw [hI.distribute hne ((hQ.ofTerms .product hne).1 he), hI.ofTerms .product hne,
      AssocOp.total_product]
  | fold op hne hr =>
    have hes := (hQ.ofTerms op hne).1 he
    rw [foldTerms_eq op fun t ht => isDecimalFree_of_isExact (hes t ht), Except.ok.injEq] at hr
    rw [← hr, hI.ofTerms op hne, ← hI.merged]
    exact magnitude_folded_le op (merged_ne_nil op hne) ((hQ.merged op _).2 hes)
  | reduce hq => exact magnitude_reduceQuotient_le he hq
  | factor hne hF =>
    rw [magnitude_unmerged ((hQ.ofTerms .sum hne).1 he) hF, hI.ofTerms .sum hne, AssocOp.total_sum]
  | label _ _ => exact le_rfl

/-! ### Simplification -/

/-- Whether an exact tree has a magnitude that can be written. -/
def IsModerate (e : Expr) : Prop :=
  e.isExact = true ∧ Numeral.fits e.magnitude = true

namespace IsModerate

/-- An exact tree that is not larger than a moderate one is moderate. -/
lemma of_le {e t : Expr} (he : IsModerate e) (ht : t.isExact = true)
    (hle : t.magnitude ≤ e.magnitude) : IsModerate t :=
  ⟨ht, Numeral.fits_of_natAbs_le (n := t.magnitude) (m := e.magnitude) hle he.2⟩

/-- Moderate trees are rewritten to moderate ones. -/
lemma of_rewrites {e t : Expr} (he : IsModerate e) (h : Rewrites e t) : IsModerate t :=
  he.of_le (h.isExact he.1) (h.magnitude_le he.1)

/-- The terms of a moderate node are moderate. -/
lemma of_mem {op : AssocOp} {a b t : Expr} {rest : List Expr} (he : IsModerate (nary op a b rest))
    (ht : t ∈ a :: b :: rest) : IsModerate t :=
  he.of_le ((hereditary_isExact.nary op a b rest).1 he.1 t ht) (magnitude_le_of_mem he.1 ht)

/-- The sides of a moderate division are moderate. -/
lemma sides {l r : Expr} (he : IsModerate (division l r)) : IsModerate l ∧ IsModerate r := by
  obtain ⟨hl, hr⟩ := isExact_division_iff.1 he.1
  exact ⟨he.of_le hl (magnitude_sides_le he.1).1, he.of_le hr (magnitude_sides_le he.1).2⟩

/-- A moderate tree can be written. -/
lemma isWritable {e : Expr} (he : IsModerate e) : e.isWritable = true := by
  induction e using Expr.induction with
  | integer n =>
    exact Numeral.fits_of_natAbs_le (m := (integer n).magnitude) (le_max_right 1 n.natAbs) he.2
  | negation e ih => exact ih ⟨(hereditary_isExact.negation e).1 he.1, he.2⟩
  | nary op a b rest ih => exact isWritable_nary_iff.2 fun t ht => ih t ht (he.of_mem ht)
  | division l r hl hr =>
    rw [Expr.isWritable, hl he.sides.1, hr he.sides.2]
    rfl
  | parentheses e ih => exact ih ⟨isExact_parentheses_iff.1 he.1, he.2⟩
  | _ => rfl

variable {side : Expr → Traced Expr}
  (hside : ∀ s, IsModerate s → ∃ r, (side s).result = .ok r)
  (hrewrites : ∀ e r, (side e).Yields (fun _ => True) r → Rewrites e r)

include hside hrewrites

/-- Resolving the divisions of a moderate tree succeeds if treating their sides does. -/
lemma exists_resolved {e : Expr} (he : IsModerate e) :
    ∃ flat, (resolveDivisions side e).Yields (fun _ => True) flat := by
  refine exists_resolveDivisions he.1 fun s hs => ?_
  have hmoderate : IsModerate s := of_mem_treatedSides (P := IsModerate)
    (fun e h => ⟨(hereditary_isExact.negation e).1 h.1, h.2⟩) (fun _ _ _ _ h _ ht => h.of_mem ht)
    (fun _ _ h => h.sides) (fun _ h => ⟨isExact_parentheses_iff.1 h.1, h.2⟩) he hs
  obtain ⟨r, hr⟩ := hside s hmoderate
  rw [← Traced.yields_true_iff] at hr
  exact ⟨r, hr, (hrewrites s r hr).isExact hmoderate.1⟩

/-- A step succeeds at a moderate tree. -/
lemma exists_stepWith {e : Expr} (he : IsModerate e) :
    ∃ e', (stepWith side e).Yields (fun _ => True) e' := by
  have hflatten := he.of_rewrites (rewrites_flatten e)
  obtain ⟨flat, hflat⟩ := exists_resolved hside hrewrites hflatten
  have hexact := (rewrites_of_yields_resolveDivisions hrewrites hflat).isExact hflatten.1
  have hstep : ∀ e', (stepWith side e).Yields (fun _ => True) e' ↔ _ :=
    fun _ => yields_stepWith_iff_of_flat hflat hexact
  cases hdivision : flat.isDivision with
  | true => exact ⟨flat, (hstep flat).2 (by rw [if_pos hdivision])⟩
  | false =>
    have hfree := isDecimalFree_of_isExact hexact
    have hexpandfree := isDecimalFree_of_isExact ((rewrites_expand flat).isExact hexact)
    obtain ⟨direct, hdirect, hdirectfree⟩ := exists_foldConstants hfree
    obtain ⟨collected, hcollected, hcollectedfree⟩ := exists_collectUpTo _ flat.expand hexpandfree
    obtain ⟨folded, hfolded, hfoldedfree⟩ := exists_foldConstants hcollectedfree
    have hbestfree : (simplestOf direct [folded]).isDecimalFree = true := by
      rw [simplestOf_singleton]
      split
      · exact hfoldedfree
      · exact hdirectfree
    obtain ⟨best, hbest, -⟩ := exists_foldConstants hbestfree
    refine ⟨best, (hstep best).2 ?_⟩
    rw [if_neg (by rw [hdivision]; decide)]
    exact ⟨direct, collected, folded, hdirect, hcollected, hfolded, trivial, hbest⟩

omit hside hrewrites in
/-- A run succeeds if its steps do at moderate trees and lead to such trees again. -/
lemma exists_runFrom {step : Expr → Traced Expr} (hstep : ∀ t, IsModerate t →
      ∃ t', (step t).result = .ok t' ∧ IsModerate t') (start : Expr) (steps : ℕ)
    {history : List Expr} {current : Expr} (hhistory : ∀ t ∈ history, IsModerate t)
    (hcurrent : IsModerate current) :
    ∃ r, (runFrom step start steps history current).result = .ok r := by
  have hcanonical : ∀ es : List Expr, (∀ t ∈ es, IsModerate t) → ∃ r, canonical es = .ok r := by
    intro es hes
    cases es with
    | nil => exact ⟨Expr.empty, rfl⟩
    | cons first others =>
      exact ⟨_, if_pos (isWritableAll_iff.2 fun t ht => (hes t ht).isWritable)⟩
  have hdrop : ∀ t ∈ history.dropWhile fun e => !current.recurs e, IsModerate t :=
    fun t ht => hhistory t ((List.dropWhile_sublist _).subset ht)
  induction steps generalizing history current with
  | zero =>
    unfold runFrom
    split
    · exact hcanonical _ hdrop
    · rw [Traced.result_bind]
      exact hcanonical history hhistory
  | succ steps ih =>
    unfold runFrom
    split
    · exact hcanonical _ hdrop
    · obtain ⟨next, hnext, hmoderate⟩ := hstep current hcurrent
      have hlonger : ∀ t ∈ history ++ [current], IsModerate t := by
        rw [List.forall_mem_append, List.forall_mem_singleton]
        exact ⟨hhistory, hcurrent⟩
      rw [Traced.result_bind, hnext]
      exact ih hlonger hmoderate fun t ht => hlonger t ((List.dropWhile_sublist _).subset ht)

/-- A run succeeds at a moderate tree. -/
lemma exists_runWith {e : Expr} (he : IsModerate e) : ∃ r, (runWith side e).result = .ok r := by
  refine exists_runFrom (fun t ht => ?_) e stepLimit (fun t ht => absurd ht List.not_mem_nil) he
  obtain ⟨t', ht'⟩ := exists_stepWith hside hrewrites ht
  exact ⟨t', ht'.1, ht.of_rewrites (rewrites_of_yields_stepWith hrewrites ht')⟩

end IsModerate

/-- Simplification succeeds at an exact tree with a magnitude that can be written, and it does not
make it larger. -/
theorem exists_simplify_of_magnitude {e : Expr} (he : e.isExact = true)
    (h : Numeral.fits e.magnitude = true) :
    ∃ r, e.simplify = .ok r ∧ r.isExact = true ∧ r.magnitude ≤ e.magnitude := by
  have hdepth : ∀ (depth : ℕ) (e : Expr), IsModerate e →
      ∃ r, (simplifyUpTo depth e).result = .ok r := by
    intro depth
    induction depth with
    | zero =>
      refine fun e he => he.exists_runWith (fun s _ => ⟨s, rfl⟩) fun s r hs => ?_
      exact Traced.yields_pure.1 hs ▸ .refl s
    | succ depth ih =>
      exact fun e he => he.exists_runWith ih fun _ _ => rewrites_of_yields_simplifyUpTo
  obtain ⟨r, hr⟩ := hdepth e.divisionDepth e ⟨he, h⟩
  have hrewrites := rewrites_of_yields_simplifyUpTo (Traced.yields_true_iff.2 hr)
  exact ⟨r, hr, hrewrites.isExact he, hrewrites.magnitude_le he⟩

end Expr

end TermAlgebra
