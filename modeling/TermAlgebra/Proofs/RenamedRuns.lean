import Mathlib.Tactic
import TermAlgebra.Proofs.Renaming
import TermAlgebra.Proofs.Settling

/-!
# Runs of renamed expressions

The simplified form of an expression does not depend on what its variables are called.

A step of a renamed expression leads to the renamed tree if the sides of divisions are simplified
independently of the names (`settles_stepWith_rename`), so that a run visits the renamed trees.  The
simplest tree of the cycle at its end is chosen by the texts of the trees, in which the names do
occur.  But the cycle of a run that comes to rest consists of one tree only (`cycle_of_recurs`), so
there is nothing to choose (`canonical_of_forall_eq`), and the run of the renamed expression comes
to rest at the renamed tree (`settles_runWith_rename`).  The sides of divisions are less deep, which
settles simplification as a whole by induction on the division depth (`settles_rename`).
-/

namespace TermAlgebra.Expr

/-- Renaming keeps exact expressions exact. -/
@[simp] lemma isExact_rename (s : String → String) (e : Expr) : (rename s e).isExact = e.isExact :=
  consistsOf_rename s _ e

/-- Whether the treatment of the sides of divisions commutes with renaming below a division
depth. -/
def RenamesBelow (s : String → String) (depth : ℕ) (side : Expr → Traced Expr) : Prop :=
  ∀ e r : Expr, e.isExact = true → e.divisionDepth < depth → (side e).Settles r →
    (side (rename s e)).Settles (rename s r)

section Runs

variable {s : String → String} (hs : Function.Injective s)

include hs

/-- A renamed tree recurs where the original one does. -/
lemma recurs_rename {e : Expr} (he : e.isExact = true) (earlier : Expr) :
    (rename s e).recurs (rename s earlier) = e.recurs earlier := by
  have hstable := isStable_of_isExact ((isExact_rename s e).trans he)
  rw [recurs, recurs, isStable_of_isExact he, hstable, beq_rename hs]

variable {side : Expr → Traced Expr} {depth : ℕ} (hside : RenamesBelow s depth side)

include hside

/-- Resolving the divisions of a renamed tree settles at the renamed result. -/
lemma settles_resolveDivisions_rename {e r : Expr} (he : e.isExact = true)
    (hdepth : e.divisionDepth ≤ depth) (h : (resolveDivisions side e).Settles r) :
    (resolveDivisions side (rename s e)).Settles (rename s r) := by
  induction e using Expr.induction generalizing r with
  | negation e ih =>
    obtain ⟨e', he', rfl⟩ := yields_resolveDivisions_negation_iff.1 h
    have hrenamed := ih ((hereditary_isExact.negation e).1 he) hdepth he'
    exact yields_resolveDivisions_negation_iff.2 ⟨rename s e', hrenamed, rfl⟩
  | nary op a b rest ih =>
    obtain ⟨es, hes, rfl⟩ := yields_resolveDivisions_nary_iff.1 h
    rw [hereditary_isExact.nary] at he
    rw [divisionDepth_nary_le_iff] at hdepth
    rw [rename_nary, ← ofTerms_rename]
    refine yields_resolveDivisions_nary_iff.2 ⟨es.map (rename s), ?_, rfl⟩
    rw [← List.map_cons, ← List.map_cons, List.forall₂_map_left_iff, List.forall₂_map_right_iff]
    exact forall₂_of_forall (fun t ht t' => ih t ht (he t ht) (hdepth t ht)) hes
  | division l q _ _ =>
    rw [isExact_division_iff] at he
    rw [divisionDepth, Nat.add_one_le_iff, max_lt_iff] at hdepth
    refine yields_resolveDivision_iff.2 ?_
    rw [reduceQuotient?_rename]
    rcases yields_resolveDivision_iff.1 h with hr | ⟨hnone, l', q', hl', hq', hr⟩
    · rcases reduceQuotient?_eq_some hr with ⟨n, rfl⟩ | ⟨d, d', rfl, -⟩ <;> exact Or.inl hr
    · refine Or.inr ⟨hnone, rename s l', rename s q', hside l l' he.1 hdepth.1 hl',
        hside q q' he.2 hdepth.2 hq', ?_⟩
      have hbeq : (division (rename s l') (rename s q') == division (rename s l) (rename s q)) =
          (division l' q' == division l q) := beq_rename hs (division l' q') (division l q)
      rw [hbeq]
      split at hr
      · next hsame => rw [if_pos hsame, ← hr, rename]
      · next hsame =>
        rw [if_neg hsame, reduceQuotient_rename, hr]
        rfl
  | parentheses e ih => exact ih (isExact_parentheses_iff.1 he) hdepth h
  | _ =>
    obtain rfl := Traced.yields_pure.1 h
    exact Traced.yields_pure.2 rfl

variable (hsettles : SettlesBelow side depth)
  (hrewrites : ∀ e r : Expr, (side e).Settles r → Rewrites e r)

include hrewrites

/-- A step of a renamed tree settles at the renamed result. -/
lemma settles_stepWith_rename {e r : Expr} (he : e.isExact = true)
    (hdepth : e.divisionDepth ≤ depth) (h : (stepWith side e).Settles r) :
    (stepWith side (rename s e)).Settles (rename s r) := by
  have hexact := isExact_of_yields_resolveDivisions_flatten hrewrites he
  obtain ⟨flat, hflat, h⟩ := (yields_stepWith_iff hexact).1 h
  have hflatten := rewrites_flatten e
  have hrenamed : (resolveDivisions side (rename s e).flatten).Settles (rename s flat) := by
    rw [flatten_rename]
    exact settles_resolveDivisions_rename hs hside (hflatten.isExact he)
      (hflatten.divisionDepth_le.trans hdepth) hflat
  have hrenamedExact := (isExact_rename s flat).trans (hexact flat hflat)
  refine (yields_stepWith_iff_of_flat hrenamed hrenamedExact).2 ?_
  rw [isDivision_rename]
  split at h
  · next hdivision => rw [if_pos hdivision, h]
  · next hdivision =>
    obtain ⟨direct, collected, folded, hdirect, hcollected, hfolded, -, hr⟩ := h
    rw [if_neg hdivision]
    refine ⟨rename s direct, rename s collected, rename s folded, ?_, ?_, ?_, rfl, ?_⟩
    · rw [foldConstants_rename, hdirect]
      rfl
    · rw [expand_rename, collect_rename hs, hcollected]
      rfl
    · rw [foldConstants_rename, hfolded]
      rfl
    · rw [← List.map_singleton, simplestOf_rename, foldConstants_rename, hr]
      rfl

include hsettles

omit hside in
/-- Where a run comes back to a tree, the run of renamed trees does so too, and settles at the
renamed result. -/
lemma settles_runFrom_rename_of_recurs {start start' current r : Expr} {steps : ℕ}
    {history : List Expr}
    (hexact : ∀ t ∈ history ++ [current], t.isExact = true ∧ t.divisionDepth ≤ depth)
    (hchain : (history ++ [current]).IsChain fun e e' => (stepWith side e).Settles e')
    (hback : history.any current.recurs = true)
    (h : (runFrom (stepWith side) start steps history current).Settles r) :
    (runFrom (stepWith side) start' steps (history.map (rename s)) (rename s current)).Settles
      (rename s r) := by
  have hcurrent := (hexact current (List.mem_append_right history List.mem_cons_self)).1
  have hrecurs : (rename s current).recurs ∘ rename s = current.recurs :=
    funext fun t => recurs_rename hs hcurrent t
  have hrenamed : (history.map (rename s)).any (rename s current).recurs = true := by
    rw [List.any_map, hrecurs, hback]
  have hnot : (fun t => !(rename s current).recurs t) ∘ rename s = fun t => !current.recurs t :=
    funext fun t => congrArg not (recurs_rename hs hcurrent t)
  obtain ⟨before, others, -, hdrop, -, -, hothers⟩ :=
    cycle_of_recurs hsettles hrewrites hexact hchain hback
  have hcanonical := (yields_runFrom_of_recurs hback).1 h
  rw [hdrop] at hcanonical
  have hwritable := isWritable_of_canonical hcanonical current List.mem_cons_self
  rw [canonical_of_forall_eq hwritable hothers] at hcanonical
  obtain rfl := Except.ok.inj hcanonical
  refine (yields_runFrom_of_recurs hrenamed).2 ?_
  rw [List.dropWhile_map, hnot, hdrop, List.map_cons]
  refine canonical_of_forall_eq ((isWritable_rename s current).trans hwritable) ?_
  rw [List.forall_mem_map]
  exact fun t ht => congrArg _ (hothers t ht)

/-- From renamed trees on a run settles at the renamed result. -/
lemma settles_runFrom_rename {start start' current r : Expr} {steps : ℕ} {history : List Expr}
    (hexact : ∀ t ∈ history ++ [current], t.isExact = true ∧ t.divisionDepth ≤ depth)
    (hchain : (history ++ [current]).IsChain fun e e' => (stepWith side e).Settles e')
    (h : (runFrom (stepWith side) start steps history current).Settles r) :
    (runFrom (stepWith side) start' steps (history.map (rename s)) (rename s current)).Settles
      (rename s r) := by
  induction steps generalizing history current with
  | zero =>
    by_cases hback : history.any current.recurs = true
    · exact settles_runFrom_rename_of_recurs hs hsettles hrewrites hexact hchain hback h
    · rw [runFrom, if_neg hback] at h
      obtain ⟨_, hnote, -⟩ := Traced.yields_bind.1 h
      exact Bool.noConfusion (Traced.yields_note.1 hnote)
  | succ steps ih =>
    by_cases hback : history.any current.recurs = true
    · exact settles_runFrom_rename_of_recurs hs hsettles hrewrites hexact hchain hback h
    · have hcurrent := hexact current (List.mem_append_right history List.mem_cons_self)
      have hrecurs : (rename s current).recurs ∘ rename s = current.recurs :=
        funext fun t => recurs_rename hs hcurrent.1 t
      rw [runFrom, if_neg hback] at h
      obtain ⟨next, hnext, h⟩ := Traced.yields_bind.1 h
      rw [runFrom, List.any_map, hrecurs, if_neg hback]
      refine Traced.yields_bind.2 ⟨rename s next,
        settles_stepWith_rename hs hside hrewrites hcurrent.1 hcurrent.2 hnext, ?_⟩
      rw [← List.map_singleton, ← List.map_append]
      refine ih ?_ ?_ h
      · rw [List.forall_mem_append]
        exact ⟨hexact, List.forall_mem_singleton.2 (isExact_of_stepWith hrewrites hnext hcurrent)⟩
      · exact isChain_concat hchain hnext

/-- A run of a renamed tree settles at the renamed result. -/
lemma settles_runWith_rename {e r : Expr} (he : e.isExact = true) (hdepth : e.divisionDepth ≤ depth)
    (h : (runWith side e).Settles r) : (runWith side (rename s e)).Settles (rename s r) :=
  settles_runFrom_rename hs hside hsettles hrewrites
    (List.forall_mem_singleton.2 ⟨he, hdepth⟩) (List.isChain_singleton e) h

end Runs

/-- Simplification commutes with renaming below every division depth. -/
lemma renamesBelow_simplifyTraced {s : String → String} (hs : Function.Injective s) (depth : ℕ) :
    RenamesBelow s depth simplifyTraced := by
  induction depth with
  | zero => exact fun e r _ hdepth _ => absurd hdepth (Nat.not_lt_zero _)
  | succ depth ih =>
    intro e r he hdepth h
    rw [simplifyTraced_eq_runWith] at h ⊢
    exact settles_runWith_rename hs ih (settlesBelow_simplifyTraced depth)
      (fun _ _ => rewrites_of_yields_simplifyTraced) he (Nat.le_of_lt_succ hdepth) h

/-- If no run is broken off, an expression with renamed variables is simplified to the simplified
form with its variables renamed, and no run is broken off in that either. -/
theorem settles_rename {s : String → String} (hs : Function.Injective s) {e r : Expr}
    (he : e.isExact = true) (h : e.simplifyTraced.Settles r) :
    (rename s e).simplify = .ok (rename s r) ∧
      (rename s e).simplifyTraced.Settles (rename s r) := by
  have hsettles := renamesBelow_simplifyTraced hs _ e r he (Nat.lt_succ_self _) h
  exact ⟨hsettles.1, hsettles⟩

/-- For instance with two names exchanged. -/
theorem settles_rename_quotient :
    (sum (division (sum (var "a") (var "a") [var "b"]) (sum (integer 1) (integer 3) []))
        (negation (var "b")) []).simplify =
      .ok (sum (division (sum (product (integer 2) (var "a") []) (var "b") []) (integer 4))
        (product (integer (-1)) (var "b") []) []) := by
  have hsettles : (sum (division (sum (var "b") (var "b") [var "a"])
      (sum (integer 1) (integer 3) [])) (negation (var "a")) []).simplifyTraced.Settles
        (sum (division (sum (product (integer 2) (var "b") []) (var "a") []) (integer 4))
          (product (integer (-1)) (var "a") []) []) :=
    ⟨eq_ok_of_returns rfl (by decide +kernel), by decide +kernel⟩
  have hrenamed := (settles_rename (Equiv.swap "a" "b").injective rfl hsettles).1
  simpa only [rename, renameAll, Equiv.swap_apply_left, Equiv.swap_apply_right] using hrenamed

end TermAlgebra.Expr
