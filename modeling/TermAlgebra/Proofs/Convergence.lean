import Mathlib.Tactic
import TermAlgebra.Proofs.Shrinking

/-!
# Speed of convergence

How long a run can go on without coming to rest.

The measure of a tree is the complexity of its folded form.  It never increases from one step to the
next, and either it drops over two steps or the second of them changes nothing
(`lt_or_eq_of_step_step`): a step leads to a strictly simpler tree or to one whose outermost
divisions are settled (`settled_or_lt_of_step`), and from such a tree a step leads to a strictly
simpler one or nowhere (`eq_or_lt_of_settled`).  So a run can only be broken off if the measure is
large enough for that many drops (`convergence_of_steps`).
-/

namespace TermAlgebra.Expr

variable {side : Expr → Traced Expr}

/-! ### Settled divisions -/

/-- Settled divisions stay as they are when the constants around them are folded. -/
lemma outerDivisions_of_foldConstants {e r : Expr}
    (he : e.OuterDivisions (SettledDivision side)) (h : foldConstants e = .ok r) :
    r.OuterDivisions (SettledDivision side) := by
  have hQ := hereditary_outerDivisions (SettledDivision side)
  induction e using Expr.induction generalizing r with
  | empty => exact he.elim
  | decimal d => exact he.elim
  | integer n =>
    obtain rfl := Except.ok.inj h
    trivial
  | var s =>
    obtain rfl := Except.ok.inj h
    trivial
  | negation e ih =>
    obtain ⟨e', he', hr⟩ := foldConstants_negation_eq_ok_iff.1 h
    refine hQ.foldTerms (List.cons_ne_nil _ _) ?_ hr
    rw [List.forall_mem_cons, List.forall_mem_singleton]
    exact ⟨hQ.integer (-1), ih he he'⟩
  | nary op a b rest ih =>
    rw [hQ.nary] at he
    obtain ⟨es, hes, hr⟩ := foldConstants_nary_eq_ok_iff.1 h
    refine hQ.foldTerms (ne_nil_of_forall₂ hes (List.cons_ne_nil _ _)) (fun t' ht' => ?_) hr
    obtain ⟨t, ht, htt'⟩ := exists_mem_of_forall₂ hes.flip ht'
    exact ih t ht (he t ht) htt'
  | division l r _ _ =>
    rw [(SettledDivision.folded he).foldConstants_eq, Except.ok.injEq] at h
    exact h ▸ he
  | parentheses e _ => exact he.elim

/-- A step from a folded tree with settled divisions changes nothing or leads to a strictly simpler
tree. -/
lemma eq_or_lt_of_settled {e e' : Expr} (he : Folded e)
    (hsettled : e.OuterDivisions (SettledDivision side)) (h : (stepWith side e).Settles e') :
    e' = e ∨ e'.complexity < e.complexity := by
  have hresolved := resolveDivisions_of_settled hsettled
  rw [← congrArg (resolveDivisions side) he.flatten_eq] at hresolved
  have h := (yields_stepWith_iff_of_flat hresolved he.isExact).1 (Traced.yields_true_iff.2 h.1)
  split at h
  · exact Or.inl h.symm
  · obtain ⟨direct, collected, folded, hdirect, -, -, -, -, rfl⟩ :=
      candidates_of_step (p := fun _ => True) (e := e) he.isExact h
    rw [he.foldConstants_eq, Except.ok.injEq] at hdirect
    rw [simplestOf_singleton, ← hdirect]
    split
    · next hless => exact Or.inr hless
    · exact Or.inl rfl

section Steps

variable {depth : ℕ} (hsettles : SettlesBelow side depth) (hreduces : ReducesBelow side depth)
  (hrewrites : ∀ e r : Expr, (side e).Yields (fun _ => True) r → Rewrites e r)

include hsettles hreduces hrewrites

/-- A step leads to a tree whose outermost divisions are settled, or to one that is strictly simpler
than the folded form. -/
lemma settled_or_lt_of_step {e e' : Expr} (he : e.isExact = true)
    (hdepth : e.divisionDepth ≤ depth) (h : (stepWith side e).Settles e') :
    e'.OuterDivisions (SettledDivision side) ∨ e'.complexity < e.foldedForm.complexity := by
  obtain ⟨flat, hflat, hsettled, h⟩ := stepWith_cases hsettles he hdepth h
  rcases h with ⟨-, rfl⟩ | ⟨-, direct, collected, folded, hdirect, -, -, -, -, rfl⟩
  · exact Or.inl hsettled
  · rw [simplestOf_singleton]
    split
    · next hless =>
      have hflatten := rewrites_flatten e
      have hrelaxes := relaxes_of_resolveDivisions hreduces hrewrites (hflatten.isExact he)
        (hflatten.divisionDepth_le.trans hdepth) (Traced.yields_true_iff.2 hflat.1)
      have hle := (hrelaxes.improves (hflatten.isExact he)).complexity_le
      rw [foldedForm_flatten he, foldedForm_of_foldConstants hdirect] at hle
      exact Or.inr (hless.trans_le hle)
    · exact Or.inl (outerDivisions_of_foldConstants hsettled hdirect)

/-- Over two steps the complexity of the folded form drops, or the second step changes nothing. -/
lemma lt_or_eq_of_step_step {a b c : Expr} (ha : a.isExact = true)
    (hdepth : a.divisionDepth ≤ depth) (hab : (stepWith side a).Settles b)
    (hbc : (stepWith side b).Settles c) :
    c.foldedForm.complexity < a.foldedForm.complexity ∨ c = b := by
  have hab' := Traced.yields_true_iff.2 hab.1
  have hbdepth := (rewrites_of_yields_stepWith hrewrites hab').divisionDepth_le.trans hdepth
  have hb := folded_of_stepWith hsettles ha hdepth hab
  have hle := (reduces_of_stepWith hreduces hrewrites ha hdepth hab').complexity_le
  have hc := reduces_of_stepWith hreduces hrewrites hb.isExact hbdepth
    (Traced.yields_true_iff.2 hbc.1)
  have hcfolded := folded_of_stepWith hsettles hb.isExact hbdepth hbc
  rcases settled_or_lt_of_step hsettles hreduces hrewrites ha hdepth hab with hsettled | hless
  · rcases eq_or_lt_of_settled hb hsettled hbc with rfl | hless
    · exact Or.inr rfl
    · rw [hcfolded.foldedForm_eq]
      exact Or.inl (hless.trans_le hle)
  · have hcle := hc.folded_le
    rw [hb.foldedForm_eq] at hcle
    exact Or.inl (hcle.trans_lt hless)

end Steps

/-! ### Runs -/

/-- A run along settled steps comes to rest if one of its trees is an earlier one. -/
lemma isUnsettled_runFrom {step : Expr → Traced Expr} {start : Expr} {es : ℕ → Expr} {n m : ℕ}
    (hsteps : ∀ k < n, (step (es k)).Settles (es (k + 1))) (hm : m ≤ n)
    (hrecurs : ((List.range m).map es).any (es m).recurs = true) (steps k : ℕ) (hk : k ≤ m)
    (hlimit : m ≤ k + steps) :
    ∀ note ∈ (runFrom step start steps ((List.range k).map es) (es k)).notes,
      note.isUnsettled = false := by
  induction steps generalizing k with
  | zero =>
    obtain rfl : k = m := le_antisymm hk hlimit
    unfold runFrom
    rw [if_pos hrecurs]
    exact fun note hnote => absurd hnote List.not_mem_nil
  | succ steps ih =>
    unfold runFrom
    split
    · exact fun note hnote => absurd hnote List.not_mem_nil
    · next hnew =>
      have hlt : k < m := by
        refine lt_of_le_of_ne hk ?_
        rintro rfl
        exact hnew hrecurs
      obtain ⟨hresult, hnotes⟩ := hsteps k (hlt.trans_le hm)
      have hhistory : (List.range k).map es ++ [es k] = (List.range (k + 1)).map es := by
        rw [List.range_succ, List.map_append, List.map_singleton]
      rw [Traced.notes_bind_of_ok hresult, hhistory]
      intro note hnote
      rcases List.mem_append.1 hnote with hnote | hnote
      · exact hnotes note hnote
      · exact ih (k + 1) hlt (by omega) note hnote

/-- A sequence that drops over every two steps up to some step has dropped by half their number. -/
lemma add_half_le_of_drops {F : ℕ → ℕ} {n : ℕ} (h : ∀ k, k + 2 ≤ n → F (k + 2) < F k) (m : ℕ)
    (hm : 2 * m ≤ n) : F (2 * m) + m ≤ F 0 := by
  induction m with
  | zero => exact le_rfl
  | succ m ih =>
    have hdrop : F (2 * m + 2) < F (2 * m) := h (2 * m) (by omega)
    have hrest := ih (by omega)
    have hindex : 2 * (m + 1) = 2 * m + 2 := by ring
    rw [hindex]
    omega

section Sequence

variable {es : ℕ → Expr} {n : ℕ} (he : (es 0).isExact = true)
  (hsteps : ∀ k < n, (es k).stepTraced.Settles (es (k + 1)))

include he hsteps

/-- Steps lead to exact trees without deeper divisions. -/
lemma isExact_of_steps (k : ℕ) (hk : k ≤ n) :
    (es k).isExact = true ∧ (es k).divisionDepth ≤ (es 0).divisionDepth := by
  induction k with
  | zero => exact ⟨he, le_rfl⟩
  | succ k ih =>
    obtain ⟨hexact, hdepth⟩ := ih (by omega)
    have hrewritten := rewrites_of_yields_stepWith (fun _ _ => rewrites_of_yields_simplifyTraced)
      (Traced.yields_true_iff.2 (hsteps k hk).1)
    exact ⟨hrewritten.isExact hexact, hrewritten.divisionDepth_le.trans hdepth⟩

/-- A step does not make the folded form more complicated. -/
lemma foldedForm_le_of_steps (k : ℕ) (hk : k < n) :
    (es (k + 1)).foldedForm.complexity ≤ (es k).foldedForm.complexity := by
  obtain ⟨hexact, hdepth⟩ := isExact_of_steps he hsteps k hk.le
  exact (reduces_of_stepWith (reducesBelow_simplifyTraced (es 0).divisionDepth)
    (fun _ _ => rewrites_of_yields_simplifyTraced) hexact hdepth
    (Traced.yields_true_iff.2 (hsteps k hk).1)).folded_le

/-- If the folded form does not get simpler over two steps, the second of them changes nothing. -/
lemma eq_of_steps (k : ℕ) (hk : k + 2 ≤ n)
    (hnot : ¬ (es (k + 2)).foldedForm.complexity < (es k).foldedForm.complexity) :
    es (k + 2) = es (k + 1) := by
  obtain ⟨hexact, hdepth⟩ := isExact_of_steps he hsteps k (by omega)
  refine Or.resolve_left ?_ hnot
  exact lt_or_eq_of_step_step (settlesBelow_simplifyTraced (es 0).divisionDepth)
    (reducesBelow_simplifyTraced (es 0).divisionDepth)
    (fun _ _ => rewrites_of_yields_simplifyTraced) hexact hdepth (hsteps k (by omega))
    (hsteps (k + 1) (by omega))

/-- From a tree with a simple folded form, two of the first trees are the same. -/
lemma exists_eq_of_steps (hlimit : stepLimit ≤ n) (hsimple : (es 0).foldedForm.complexity < 33) :
    ∃ k, k + 2 ≤ stepLimit ∧ es (k + 2) = es (k + 1) := by
  by_contra hnone
  have hdrops : ∀ k, k + 2 ≤ stepLimit →
      (es (k + 2)).foldedForm.complexity < (es k).foldedForm.complexity := by
    intro k hk
    by_contra hnot
    exact hnone ⟨k, hk, eq_of_steps he hsteps k (hk.trans hlimit) hnot⟩
  have hfar : (es 64).foldedForm.complexity + 32 ≤ (es 0).foldedForm.complexity :=
    add_half_le_of_drops (F := fun k => (es k).foldedForm.complexity) hdrops 32 le_rfl
  have hpos := (folded_foldedForm (isExact_of_steps he hsteps 64 hlimit).1).one_le_complexity
  omega

/-- A run from a tree with a simple folded form comes to rest. -/
lemma isUnsettled_of_steps (hlimit : stepLimit ≤ n)
    (hsimple : (es 0).foldedForm.complexity < 33) :
    ∀ note ∈ (es 0).simplifyTraced.notes, note.isUnsettled = false := by
  obtain ⟨k, hk, hsame⟩ := exists_eq_of_steps he hsteps hlimit hsimple
  have hrecurs : ((List.range (k + 2)).map es).any (es (k + 2)).recurs = true := by
    rw [List.any_eq_true]
    refine ⟨es (k + 1), List.mem_map_of_mem (List.mem_range.2 (by omega)), ?_⟩
    rw [hsame]
    exact recurs_self (isExact_of_steps he hsteps (k + 1) (by omega)).1
  rw [simplifyTraced_eq_runWith]
  exact isUnsettled_runFrom hsteps (hk.trans hlimit) hrecurs stepLimit 0 (Nat.zero_le _) (by omega)

/-- Along steps in which every run on a side of a division comes to rest, the complexity of the
folded form never increases, and where it does not drop over two steps the second of them changes
nothing.  So a run of simplification can only be broken off if the folded form of the tree that it
starts from has a complexity of 33 or more. -/
theorem convergence_of_steps :
    ∃ F : ℕ → ℕ, (∀ k ≤ n, ∃ c, (es k).foldConstants = .ok c ∧ c.complexity = F k) ∧
      (∀ k < n, F (k + 1) ≤ F k) ∧
      (∀ k, k + 2 ≤ n → ¬ F (k + 2) < F k → es (k + 2) = es (k + 1)) ∧
      (stepLimit ≤ n → (∃ note ∈ (es 0).simplifyTraced.notes, note.isUnsettled = true) →
        33 ≤ F 0) := by
  refine ⟨fun k => (es k).foldedForm.complexity, fun k hk => ?_, foldedForm_le_of_steps he hsteps,
    eq_of_steps he hsteps, ?_⟩
  · exact ⟨_, foldConstants_eq_foldedForm (isExact_of_steps he hsteps k hk).1, rfl⟩
  · rintro hlimit ⟨note, hnote, hunsettled⟩
    by_contra hsimple
    have hsettled := isUnsettled_of_steps he hsteps hlimit (Nat.lt_of_not_le hsimple) note hnote
    exact Bool.noConfusion (hunsettled.symm.trans hsettled)

end Sequence

/-- For instance the steps from `(x + x) / 1 + y` end at `2 * x / 1 + y`, and the run that takes
them is not broken off. -/
theorem convergence_of_steps_quotient :
    (sum (division (sum (var "x") (var "x") []) (integer 1)) (var "y") []).step =
        .ok (sum (division (product (integer 2) (var "x") []) (integer 1)) (var "y") []) ∧
      (sum (division (sum (var "x") (var "x") []) (integer 1))
        (var "y") []).simplifyTraced.notes.any Simplify.Note.isUnsettled = false := by
  let first := sum (division (sum (var "x") (var "x") []) (integer 1)) (var "y") []
  let last := sum (division (product (integer 2) (var "x") []) (integer 1)) (var "y") []
  let es : ℕ → Expr := fun k => if k = 0 then first else last
  have hfirst : first.stepTraced.Settles last :=
    ⟨eq_ok_of_returns rfl (by decide +kernel), by decide +kernel⟩
  have hlast : last.stepTraced.Settles last :=
    ⟨eq_ok_of_returns rfl (by decide +kernel), by decide +kernel⟩
  have hsteps : ∀ k < stepLimit, (es k).stepTraced.Settles (es (k + 1)) := by
    intro k _
    have hnext : es (k + 1) = last := if_neg (Nat.succ_ne_zero k)
    rw [hnext]
    by_cases hk : k = 0
    · have hes : es k = first := if_pos hk
      rw [hes]
      exact hfirst
    · have hes : es k = last := if_neg hk
      rw [hes]
      exact hlast
  obtain ⟨F, hF, -, -, hbroken⟩ := convergence_of_steps rfl hsteps
  obtain ⟨c, hc, hcomplexity⟩ := hF 0 (Nat.zero_le _)
  have hfold : (es 0).foldConstants = .ok (es 0) := rfl
  have hsimple : F 0 = 12 := by
    rw [← hcomplexity, ← Except.ok.inj (hfold.symm.trans hc)]
    rfl
  refine ⟨hfirst.1, List.any_eq_false.2 fun note hnote hunsettled => ?_⟩
  have hlarge := hbroken le_rfl ⟨note, hnote, hunsettled⟩
  omega

end TermAlgebra.Expr
