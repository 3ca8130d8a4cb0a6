import Mathlib.Tactic
import TermAlgebra.Proofs.Conservation

/-!
# Simplified quotients

If no run is broken off, a division is simplified to the reduced quotient of its simplified sides
(`simplify_division`).

A run ends at a tree that a step leaves as it is as soon as its steps lead there
(`simplify_of_stepTimes`): before that no tree can come back, because steps that lead back to a tree
never lead away from it (`eq_of_cycle_of_stepTimes`).  So two trees with the same first step have
the same simplified form, and in particular it does not matter whether a tree is flattened first
(`simplify_flatten`).

The first step of a division flattens both sides.  Whether it then reduces their quotient at once
or simplifies them before, it comes to the reduced quotient of the simplified sides
(`step_division`), and this is left as it is by the next step (`step_quotient`).
-/

namespace TermAlgebra.Expr

/-! ### Runs that reach a fixed tree -/

/-- Steps from exact trees lead to exact trees. -/
lemma isExact_of_step {e e' : Expr} (h : e.step = .ok e') (he : e.isExact = true) :
    e'.isExact = true :=
  (rewrites_of_yields_stepWith (fun _ _ => rewrites_of_yields_simplifyTraced)
    (Traced.yields_true_iff.2 h)).isExact he

/-- Steps from a tree go on where others have led. -/
lemma stepTimes_add {x y : Expr} {k : ℕ} (h : stepTimes k x = .ok y) (j : ℕ) :
    stepTimes (k + j) x = stepTimes j y := by
  induction k generalizing x with
  | zero =>
    obtain rfl := Except.ok.inj h
    rw [Nat.zero_add]
  | succ k ih =>
    obtain ⟨next, hnext, h⟩ := Outcome.bind_eq_ok_iff.1 h
    rw [Nat.add_right_comm, stepTimes, hnext]
    exact ih h

section Fixed

variable {r : Expr} (hfixed : r.step = .ok r)

include hfixed

/-- A tree to which steps lead back, and from which they lead to one that a step leaves as it is, is
this one. -/
lemma eq_of_cycle_of_stepTimes {x : Expr} {others : List Expr} {k : ℕ}
    (hcycle : (x :: others ++ [x]).IsChain fun a b => a.step = .ok b)
    (h : stepTimes k x = .ok r) : x = r := by
  have hperiod : stepTimes (others.length + 1) x = .ok x := stepTimes_of_chain 0 rfl hcycle
  have hreturn : ∀ n, stepTimes (n * (others.length + 1)) x = .ok x := by
    intro n
    induction n with
    | zero => rw [Nat.zero_mul]; rfl
    | succ n ih => rw [Nat.succ_mul, Nat.add_comm, stepTimes_add hperiod, ih]
  have hmultiple := hreturn k
  rw [Nat.mul_succ, Nat.add_comm, stepTimes_add h, stepTimes_of_fixed hfixed] at hmultiple
  exact (Except.ok.inj hmultiple).symm

variable (hwritable : r.isWritable = true)

include hwritable

/-- Where a run comes back to a tree from which steps lead to one that a step leaves as it is, it
ends at this one. -/
lemma result_runFrom_of_back {start current : Expr} {steps k : ℕ} {history : List Expr}
    (hexact : current.isExact = true)
    (hchain : (history ++ [current]).IsChain fun a b => a.step = .ok b)
    (hback : history.any current.recurs = true) (h : stepTimes k current = .ok r) :
    (runFrom stepTraced start steps history current).result = .ok r := by
  obtain ⟨before, x, others, rfl, hx, hdrop⟩ := exists_split_of_any hback
  obtain rfl := eq_of_recurs hexact hx
  rw [List.append_assoc] at hchain
  have hcycle := (List.isChain_append.1 hchain).2.1
  obtain rfl := eq_of_cycle_of_stepTimes hfixed hcycle h
  rw [result_runFrom_of_recurs hback, hdrop]
  refine canonical_of_forall_eq hwritable fun e he => ?_
  exact eq_of_isChain (fun t ht => Except.ok.inj (ht.symm.trans hfixed)) hcycle e
    (List.mem_cons_of_mem _ (List.mem_append_left _ he))

/-- A run whose steps lead to a tree that a step leaves as it is ends at this tree. -/
lemma result_runFrom_of_stepTimes {start current : Expr} {steps k : ℕ} {history : List Expr}
    (hexact : current.isExact = true)
    (hchain : (history ++ [current]).IsChain fun a b => a.step = .ok b)
    (hsteps : k < steps) (h : stepTimes k current = .ok r) :
    (runFrom stepTraced start steps history current).result = .ok r := by
  obtain ⟨steps, rfl⟩ := Nat.exists_eq_succ_of_ne_zero (Nat.ne_zero_of_lt hsteps)
  induction k generalizing history current steps with
  | zero =>
    by_cases hback : history.any current.recurs = true
    · exact result_runFrom_of_back hfixed hwritable hexact hchain hback h
    · -- One more step leads from the tree to itself, so that it comes back.
      obtain rfl := Except.ok.inj h
      rw [result_runFrom_of_step (Bool.eq_false_iff.2 hback) hfixed]
      refine result_runFrom_of_back hfixed hwritable hexact (isChain_concat hchain hfixed) ?_ h
      simp [recurs_self hexact]
  | succ k ih =>
    by_cases hback : history.any current.recurs = true
    · exact result_runFrom_of_back hfixed hwritable hexact hchain hback h
    · obtain ⟨next, hnext, h⟩ := Outcome.bind_eq_ok_iff.1 h
      obtain ⟨steps, rfl⟩ := Nat.exists_eq_succ_of_ne_zero (by omega : steps ≠ 0)
      rw [result_runFrom_of_step (Bool.eq_false_iff.2 hback) hnext]
      exact ih (isExact_of_step hnext hexact) (isChain_concat hchain hnext) h steps
        (Nat.lt_of_succ_lt_succ hsteps)

/-- If steps lead to a tree that a step leaves as it is, in fewer steps than a run may take, this
tree is the simplified form. -/
lemma simplify_of_stepTimes {e : Expr} {k : ℕ} (he : e.isExact = true) (hk : k < stepLimit)
    (h : stepTimes k e = .ok r) : e.simplify = .ok r := by
  rw [simplify, simplifyTraced_eq_runWith]
  exact result_runFrom_of_stepTimes hfixed hwritable he (List.isChain_singleton e) hk h

end Fixed

/-! ### Flattening first -/

/-- A step of a flattened tree is one of the tree. -/
lemma step_flatten {e r : Expr} (he : e.isEmptyFree = true) (h : e.step = .ok r) :
    e.flatten.step = .ok r := by
  have hstep := yields_labelledStep_iff.1 (Traced.yields_true_iff.2 h)
  refine Traced.yields_true_iff.1 (yields_labelledStep_iff.2 ?_)
  rw [(flat_flatten he).flatten_eq]
  exact hstep

/-- Flattening does not change the simplified form of a tree. -/
lemma simplify_flatten {e r : Expr} (he : e.isExact = true) (h : e.simplifyTraced.Settles r) :
    e.flatten.simplify = .ok r := by
  have hrests := restsAt_of_settles he h
  obtain ⟨before, hlength, hhead, hchain⟩ := hrests.reached
  have hreached := stepTimes_of_chain 0 hhead hchain
  refine simplify_of_stepTimes hrests.fixed hrests.isWritable ((rewrites_flatten e).isExact he)
    hlength ?_
  cases before with
  | nil =>
    obtain rfl : r = e := Option.some.inj hhead
    rw [hrests.folded.flatten_eq]
    rfl
  | cons b before =>
    obtain ⟨next, hnext, hreached⟩ := Outcome.bind_eq_ok_iff.1 hreached
    rw [List.length_cons, stepTimes, step_flatten (isEmptyFree_of_isExact he) hnext]
    exact hreached

/-! ### Quotients -/

/-- An integer is its own simplified form. -/
lemma eq_integer_of_simplify {n : ℤ} {r : Expr} (h : (integer n).simplify = .ok r) :
    r = integer n := by
  rw [simplify, simplifyTraced_eq_runWith,
    result_runWith_eq_canonical rfl (stepWith_integer n) (stepWith_integer n)] at h
  exact List.mem_singleton.1 (canonical_mem (List.cons_ne_nil _ _) h)

/-- A reduced quotient of integers is an integer if one divides the other, and otherwise it is the
quotient as it stands. -/
lemma reduceQuotient_cases {l r q : Expr} (hl : l.isDecimalFree = true)
    (hr : r.isDecimalFree = true) (h : reduceQuotient l r = .ok q) :
    (∃ a b : ℤ, l = integer a ∧ r = integer b ∧ 0 < b ∧ b ∣ a ∧ q = integer (a / b)) ∨
      integerQuotient? l r = none ∧ q = division l r := by
  rw [reduceQuotient_eq hl hr, Except.ok.injEq] at h
  cases hquotient : integerQuotient? l r with
  | none =>
    rw [hquotient] at h
    exact Or.inr ⟨rfl, h.symm⟩
  | some c =>
    rw [hquotient] at h
    obtain rfl : c = q := h
    exact Or.inl (integerQuotient?_eq_some_iff.1 hquotient)

/-- A quotient of integers can be written if the integers can. -/
lemma isWritable_quotient {a b : ℤ} (h : (integer a).isWritable = true) :
    (integer (a / b)).isWritable = true := by
  rw [isWritable, Numeral.fits, decide_eq_true_eq] at h ⊢
  exact (Int.natAbs_ediv_le_natAbs a b).trans_lt h

section Division

variable {l r l' r' q : Expr} (hl : l.isExact = true) (hr : r.isExact = true)
  (hleft : l.simplifyTraced.Settles l') (hright : r.simplifyTraced.Settles r')
  (hq : reduceQuotient l' r' = .ok q)

include hl hr hleft hright hq

/-- What the reduced quotient of simplified sides can be. -/
lemma quotient_cases :
    (∃ a b : ℤ, l' = integer a ∧ r' = integer b ∧ 0 < b ∧ b ∣ a ∧ q = integer (a / b)) ∨
      integerQuotient? l' r' = none ∧ q = division l' r' :=
  reduceQuotient_cases (restsAt_of_settles hl hleft).folded.isDecimalFree
    (restsAt_of_settles hr hright).folded.isDecimalFree hq

/-- Resolving a flattened division comes to the reduced quotient of its simplified sides. -/
lemma resolveDivisions_flatten_division :
    (resolveDivisions simplifyTraced (division l r).flatten).Yields (fun _ => True) q := by
  have hlflat := simplify_flatten hl hleft
  have hrflat := simplify_flatten hr hright
  have hlfree := isDecimalFree_of_isExact ((rewrites_flatten l).isExact hl)
  have hrfree := isDecimalFree_of_isExact ((rewrites_flatten r).isExact hr)
  have hlfree' := (restsAt_of_settles hl hleft).folded.isDecimalFree
  have hrfree' := (restsAt_of_settles hr hright).folded.isDecimalFree
  rw [reduceQuotient_eq hlfree' hrfree', Except.ok.injEq] at hq
  rw [flatten, resolveDivisions]
  refine yields_resolveDivision_iff.2 ?_
  rw [reduceQuotient?_eq hlfree hrfree]
  cases hquotient : integerQuotient? l.flatten r.flatten with
  | some c =>
    -- The flattened sides are integers already, so that simplifying leaves them.
    obtain ⟨a, b, ha, hb, -⟩ := integerQuotient?_eq_some_iff.1 hquotient
    rw [ha] at hlflat
    rw [hb] at hrflat
    rw [eq_integer_of_simplify hlflat, eq_integer_of_simplify hrflat, ← ha, ← hb, hquotient] at hq
    obtain rfl : c = q := hq
    exact Or.inl rfl
  | none =>
    refine Or.inr
      ⟨rfl, l', r', Traced.yields_true_iff.2 hlflat, Traced.yields_true_iff.2 hrflat, ?_⟩
    split
    · next hsame =>
      have hsame := (beq_iff_eq_of_isDecimalFree (isDecimalFree_division_iff.2
        ⟨hlfree', hrfree'⟩)).1 hsame
      obtain ⟨rfl, rfl⟩ := Expr.division.inj hsame
      rw [hquotient] at hq
      exact hq
    · rw [reduceQuotient_eq hlfree' hrfree', hq]

/-- A step of a division comes to the reduced quotient of its simplified sides. -/
lemma step_division : (division l r).step = .ok q := by
  have hresolve := resolveDivisions_flatten_division hl hr hleft hright hq
  have hexact := isExact_of_yields_resolveDivisions_flatten
    (fun _ _ => rewrites_of_yields_simplifyTraced) (isExact_division_iff.2 ⟨hl, hr⟩) q hresolve
  refine Traced.yields_true_iff.1 ((yields_stepWith_iff_of_flat hresolve hexact).2 ?_)
  rcases quotient_cases hl hr hleft hright hq with ⟨a, b, -, -, -, -, rfl⟩ | ⟨-, rfl⟩
  · exact ⟨_, _, _, rfl, rfl, rfl, trivial, rfl⟩
  · rfl

/-- A step leaves the reduced quotient of simplified sides as it is. -/
lemma step_quotient : q.step = .ok q := by
  have hlrests := restsAt_of_settles hl hleft
  have hrrests := restsAt_of_settles hr hright
  have hsame : ∀ {e t : Expr}, RestsAt simplifyTraced e t → t.simplify = .ok t := fun h =>
    simplify_of_stepTimes h.fixed h.isWritable h.folded.isExact (by decide : 0 < stepLimit) rfl
  rcases quotient_cases hl hr hleft hright hq with ⟨a, b, -, -, -, -, rfl⟩ | ⟨hnone, rfl⟩
  · exact stepWith_integer _
  · have hsettled : SettledDivision simplifyTraced l' r' :=
      ⟨hlrests.folded, hrrests.folded, hnone, hsame hlrests, hsame hrrests⟩
    have hresolve : (resolveDivisions simplifyTraced (division l' r').flatten).Yields
        (fun _ => True) (division l' r') := by
      rw [hsettled.folded.flatten_eq]
      exact resolveDivisions_of_settled hsettled
    exact Traced.yields_true_iff.1
      ((yields_stepWith_iff_of_flat hresolve hsettled.folded.isExact).2 rfl)

/-- The reduced quotient of simplified sides can be written. -/
lemma isWritable_reducedQuotient : q.isWritable = true := by
  have hlwritable := (restsAt_of_settles hl hleft).isWritable
  have hrwritable := (restsAt_of_settles hr hright).isWritable
  rcases quotient_cases hl hr hleft hright hq with ⟨a, b, rfl, -, -, -, rfl⟩ | ⟨-, rfl⟩
  · exact isWritable_quotient hlwritable
  · rw [isWritable, hlwritable, hrwritable]
    rfl

/-- The reduced quotient of simplified sides is an integer exactly if they are integers and the
right one is positive and divides the left one. -/
lemma quotient_eq_integer_iff {n : ℤ} :
    q = integer n ↔
      ∃ a b : ℤ, l' = integer a ∧ r' = integer b ∧ 0 < b ∧ b ∣ a ∧ n = a / b := by
  rcases quotient_cases hl hr hleft hright hq with
    ⟨a, b, rfl, rfl, hb, hdvd, rfl⟩ | ⟨hnone, rfl⟩
  · constructor
    · intro h
      exact ⟨a, b, rfl, rfl, hb, hdvd, (Expr.integer.inj h).symm⟩
    · rintro ⟨c, d, hc, hd, -, -, rfl⟩
      rw [Expr.integer.inj hc, Expr.integer.inj hd]
  · constructor
    · exact nofun
    · rintro ⟨a, b, rfl, rfl, hb, hdvd, -⟩
      rw [integerQuotient?_eq_some_iff.2 ⟨a, b, rfl, rfl, hb, hdvd, rfl⟩] at hnone
      exact absurd hnone (Option.some_ne_none _)

end Division

/-- If no run is broken off, the simplified form of a division is the reduced quotient of its
simplified sides.  It is an integer exactly if these are integers and the right one is positive and
divides the left one. -/
theorem simplify_division {l r l' r' : Expr} (hl : l.isExact = true) (hr : r.isExact = true)
    (hleft : l.simplifyTraced.Settles l') (hright : r.simplifyTraced.Settles r') :
    ∃ q, reduceQuotient l' r' = .ok q ∧ (division l r).simplify = .ok q ∧
      ∀ n : ℤ, q = integer n ↔
        ∃ a b : ℤ, l' = integer a ∧ r' = integer b ∧ 0 < b ∧ b ∣ a ∧ n = a / b := by
  have hq := reduceQuotient_eq (restsAt_of_settles hl hleft).folded.isDecimalFree
    (restsAt_of_settles hr hright).folded.isDecimalFree
  refine ⟨_, hq, ?_, fun n => quotient_eq_integer_iff hl hr hleft hright hq⟩
  refine simplify_of_stepTimes (step_quotient hl hr hleft hright hq)
    (isWritable_reducedQuotient hl hr hleft hright hq) (isExact_division_iff.2 ⟨hl, hr⟩)
    (by decide : 1 < stepLimit) ?_
  rw [stepTimes, step_division hl hr hleft hright hq]
  rfl

/-- For instance a quotient whose sides are not constants before they are simplified. -/
theorem simplify_division_constant :
    (division (sum (var "x") (integer 6) [negation (var "x")])
      (parentheses (sum (integer 1) (integer 2) []))).simplify = .ok (integer 2) := by
  have hleft : (sum (var "x") (integer 6) [negation (var "x")]).simplifyTraced.Settles
      (integer 6) := ⟨eq_ok_of_returns rfl (by decide +kernel), by decide +kernel⟩
  have hright : (parentheses (sum (integer 1) (integer 2) [])).simplifyTraced.Settles
      (integer 3) := ⟨eq_ok_of_returns rfl (by decide +kernel), by decide +kernel⟩
  obtain ⟨q, -, hsimplify, hinteger⟩ := simplify_division rfl rfl hleft hright
  rw [hsimplify, (hinteger 2).2 ⟨6, 3, rfl, rfl, by decide, by decide, by decide⟩]

end TermAlgebra.Expr
