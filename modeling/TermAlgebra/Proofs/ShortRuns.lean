import Mathlib.Tactic
import TermAlgebra.Proofs.Convergence

/-!
# Runs from simple trees

A run from an exact tree of complexity 16 at most is not broken off, nor is any run within it
(`settles_of_simple`).

A step settles if the treatment of the sides of divisions in it does
(`settles_stepWith_of_sides`).  Sides are no more complicated than the tree around them, and the
folded form of a tree at most twice as complicated as the tree (`complexity_foldedForm_le`); after
the first step all trees are folded and no more complicated than that.  So every tree in question is
of complexity 16 at most, or folded and of complexity 32 at most, and the drops that
`isUnsettled_of_steps` needs do not fit in.
-/

namespace TermAlgebra.Expr

variable {side : Expr → Traced Expr}

/-! ### Steps that settle -/

/-- Resolving divisions settles if the treatment of their sides does. -/
lemma settles_resolveDivisions_of_sides {e r : Expr}
    (hside : ∀ s ∈ e.treatedSides, ∀ s', (side s).result = .ok s' → (side s).Settles s')
    (h : (resolveDivisions side e).result = .ok r) : (resolveDivisions side e).Settles r := by
  rw [← Traced.yields_true_iff] at h
  induction e using Expr.induction generalizing r with
  | negation e ih =>
    obtain ⟨e', he, rfl⟩ := yields_resolveDivisions_negation_iff.1 h
    exact yields_resolveDivisions_negation_iff.2 ⟨e', ih hside he, rfl⟩
  | nary op a b rest ih =>
    obtain ⟨es, hes, rfl⟩ := yields_resolveDivisions_nary_iff.1 h
    refine yields_resolveDivisions_nary_iff.2 ⟨es, ?_, rfl⟩
    exact forall₂_of_forall (fun t ht t' => ih t ht fun s hs =>
      hside s (mem_treatedSides_nary.2 ⟨t, ht, hs⟩)) hes
  | division l q _ _ =>
    rcases yields_resolveDivision_iff.1 h with hr | ⟨hnone, l', q', hl, hq, hr⟩
    · exact yields_resolveDivision_iff.2 (Or.inl hr)
    · have hsides : (division l q).treatedSides = [l, q] := by
        rw [treatedSides, hnone]
      rw [hsides, List.forall_mem_cons, List.forall_mem_singleton] at hside
      exact yields_resolveDivision_iff.2
        (Or.inr ⟨hnone, l', q', hside.1 l' hl.1, hside.2 q' hq.1, hr⟩)
  | parentheses e ih => exact ih hside h
  | _ => exact Traced.yields_pure.2 (Traced.yields_pure.1 h)

/-- A step settles if the treatment of the sides in the flattened tree does. -/
lemma settles_stepWith_of_sides {e r : Expr}
    (hside : ∀ s ∈ e.flatten.treatedSides, ∀ s', (side s).result = .ok s' → (side s).Settles s')
    (h : (stepWith side e).result = .ok r) : (stepWith side e).Settles r := by
  rw [← Traced.yields_true_iff] at h
  obtain ⟨resolved, flat, hresolved, hflat, h⟩ := yields_labelledStep_iff.1 h
  refine yields_labelledStep_iff.2
    ⟨resolved, flat, settles_resolveDivisions_of_sides hside hresolved.1, hflat, ?_⟩
  split at h
  · next hdivision => rwa [if_pos hdivision]
  · next hdivision =>
    obtain ⟨direct, collected, folded, best, hdirect, hcollected, hfolded, -, hr⟩ := h
    rw [if_neg hdivision]
    exact ⟨direct, collected, folded, best, hdirect, hcollected, hfolded, rfl, hr⟩

/-! ### Complexities -/

/-- Flattening does not change the complexity of an exact tree. -/
lemma complexity_flatten {e : Expr} (he : e.isExact = true) :
    e.flatten.complexity = e.complexity := by
  induction e using Expr.induction with
  | negation e ih => rw [flatten, complexity, complexity, ih ((hereditary_isExact.negation e).1 he)]
  | nary op a b rest ih =>
    have hterms := (hereditary_isExact.nary op a b rest).1 he
    have hflat : ∀ t ∈ (a :: b :: rest).map flatten, t.isExact = true := by
      rw [List.forall_mem_map]
      exact fun t ht => (rewrites_flatten t).isExact (hterms t ht)
    have hmerged := (hereditary_isExact.merged op _).2 hflat
    have hweights : ((a :: b :: rest).map flatten).map (weight op) =
        (a :: b :: rest).map (weight op) := by
      rw [List.map_map]
      exact List.map_congr_left fun t ht => congrArg (· + op.cost) (ih t ht (hterms t ht))
    have hweight : (flatten (nary op a b rest)).weight op = (nary op a b rest).weight op :=
      calc (flatten (nary op a b rest)).weight op
          = (ofTerms op (merged op ((a :: b :: rest).map flatten))).weight op := by
            rw [flatten, flattenAll_eq_map, ← List.map_cons, ← List.map_cons,
              gather_eq_ofTerms op fun t ht => isEmpty_of_isExact (hmerged t ht)]
        _ = (((a :: b :: rest).map flatten).map (weight op)).sum := by
            rw [weight_ofTerms op (merged_ne_nil op (by simp)), sum_weight_merged]
        _ = (ofTerms op (a :: b :: rest)).weight op := by
            rw [hweights, weight_ofTerms op (List.cons_ne_nil _ _)]
    exact Nat.add_right_cancel hweight
  | division l r hl hr =>
    rw [isExact_division_iff] at he
    rw [flatten, complexity, complexity, hl he.1, hr he.2]
  | parentheses e ih => rw [flatten, complexity, ih (isExact_parentheses_iff.1 he)]
  | _ => rfl

/-- A term is no more complicated than the node that it stands in. -/
lemma complexity_le_of_mem_terms {op : AssocOp} {a b t : Expr} {rest : List Expr}
    (ht : t ∈ a :: b :: rest) : t.complexity ≤ (nary op a b rest).complexity := by
  have hle : t.weight op ≤ ((a :: b :: rest).map (weight op)).sum :=
    List.single_le_sum (fun _ _ => Nat.zero_le _) _ (List.mem_map_of_mem ht)
  rw [← weight_ofTerms op (List.cons_ne_nil a (b :: rest))] at hle
  exact Nat.le_of_add_le_add_right hle

/-- A side of a division in a tree is no more complicated than the tree. -/
lemma complexity_le_of_mem_treatedSides {e s : Expr} (hs : s ∈ e.treatedSides) :
    s.complexity ≤ e.complexity := by
  refine of_mem_treatedSides (P := fun t => t.complexity ≤ e.complexity)
    (fun t ht => (Nat.le_add_left _ _).trans ht)
    (fun op a b rest ht t hmem => (complexity_le_of_mem_terms hmem).trans ht)
    (fun l r ht => ?_) (fun t ht => ht) le_rfl hs
  rw [complexity] at ht
  omega

/-- A side of a division in a folded tree is folded. -/
lemma Folded.of_mem_treatedSides {e s : Expr} (he : Folded e) (hs : s ∈ e.treatedSides) :
    Folded s := by
  refine Expr.of_mem_treatedSides (P := Folded) ?_ ?_ ?_ ?_ he hs
  · intro e h
    cases h
  · intro op a b rest h
    cases h with
    | nary _ hterms _ _ => exact hterms
  · intro l r h
    cases h with
    | division hl hr _ => exact ⟨hl, hr⟩
  · intro e h
    cases h

/-- The folded form of an exact tree is at most twice as complicated as the tree: a sign may become
a factor, which counts one more. -/
lemma complexity_foldedForm_le {e : Expr} (he : e.isExact = true) :
    e.foldedForm.complexity ≤ 2 * e.complexity := by
  induction e using Expr.induction with
  | empty => exact Bool.noConfusion he
  | decimal d => exact Bool.noConfusion he
  | integer n =>
    rw [(Folded.integer n).foldedForm_eq]
    exact Nat.le_mul_of_pos_left _ Nat.two_pos
  | var s =>
    rw [(Folded.var s).foldedForm_eq]
    exact Nat.le_mul_of_pos_left _ Nat.two_pos
  | negation e ih =>
    have hexact := (hereditary_isExact.negation e).1 he
    have hle := weight_foldedForm_ofTerms_le .product (List.cons_ne_nil (integer (-1)) [e])
      (List.forall_mem_cons.2 ⟨rfl, List.forall_mem_singleton.2 hexact⟩)
    rw [Expr.ofTerms, ← foldedForm_negation_eq_product hexact] at hle
    simp only [List.map_cons, List.map_nil, List.sum_cons, List.sum_nil,
      (Folded.integer (-1)).foldedForm_eq, weight, complexity, AssocOp.cost] at hle
    have hrest := ih hexact
    rw [complexity]
    omega
  | nary op a b rest ih =>
    have hterms := (hereditary_isExact.nary op a b rest).1 he
    have hle := weight_foldedForm_ofTerms_le op (List.cons_ne_nil a (b :: rest)) hterms
    have hsum : (((a :: b :: rest).map foldedForm).map (weight op)).sum ≤
        ((a :: b :: rest).map fun t => t.complexity + t.weight op).sum := by
      rw [List.map_map]
      refine List.sum_le_sum fun t ht => ?_
      have hterm := ih t ht (hterms t ht)
      rw [Function.comp_apply, weight, weight]
      omega
    have hparts : ((a :: b :: rest).map complexity).sum ≤ (nary op a b rest).complexity := by
      rw [complexity, complexityAll_eq_sum, List.map_cons, List.map_cons, List.sum_cons,
        List.sum_cons]
      omega
    rw [List.sum_map_add, ← weight_ofTerms op (List.cons_ne_nil a (b :: rest))] at hsum
    rw [Expr.ofTerms] at hle hsum
    rw [weight] at hle hsum
    omega
  | division l r hl hr =>
    rw [isExact_division_iff] at he
    rw [foldedForm_division he.1 he.2, complexity]
    have hle := complexity_quotient_le l.foldedForm r.foldedForm
    have hlle := hl he.1
    have hrle := hr he.2
    omega
  | parentheses e ih =>
    have hexact := isExact_parentheses_iff.1 he
    rw [foldedForm_parentheses hexact]
    exact ih hexact

/-! ### Runs -/

/-- Whether an exact tree is of complexity 16 at most, or folded and of complexity 32 at most. -/
def IsSimple (e : Expr) : Prop :=
  e.isExact = true ∧ (e.complexity ≤ 16 ∨ Folded e ∧ e.complexity ≤ 32)

namespace IsSimple

variable {e : Expr} (h : IsSimple e)

include h

/-- The folded form of a simple tree is of complexity 32 at most. -/
lemma complexity_foldedForm_lt : e.foldedForm.complexity < 33 := by
  rcases h.2 with hle | ⟨hfolded, hle⟩
  · have htwice := complexity_foldedForm_le h.1
    omega
  · rw [hfolded.foldedForm_eq]
    omega

/-- The sides of divisions in a flattened simple tree are simple. -/
lemma of_mem_treatedSides {s : Expr} (hs : s ∈ e.flatten.treatedSides) : IsSimple s := by
  have hle := complexity_le_of_mem_treatedSides hs
  refine ⟨isExact_of_mem_treatedSides ((rewrites_flatten e).isExact h.1) hs, ?_⟩
  rw [complexity_flatten h.1] at hle
  rcases h.2 with hsmall | ⟨hfolded, hsmall⟩
  · exact Or.inl (hle.trans hsmall)
  · rw [hfolded.flatten_eq] at hs
    exact Or.inr ⟨hfolded.of_mem_treatedSides hs, hle.trans hsmall⟩

/-- A step that settles leads from a simple tree to a simple one. -/
lemma of_step {e' : Expr} (hstep : e.stepTraced.Settles e') : IsSimple e' := by
  have hfolded := folded_of_stepWith (settlesBelow_simplifyTraced e.divisionDepth) h.1 le_rfl hstep
  have hle := (reduces_of_stepWith (reducesBelow_simplifyTraced e.divisionDepth)
    (fun _ _ => rewrites_of_yields_simplifyTraced) h.1 le_rfl
    (Traced.yields_true_iff.2 hstep.1)).folded_le
  rw [hfolded.foldedForm_eq] at hle
  have hlt := h.complexity_foldedForm_lt
  exact ⟨hfolded.isExact, Or.inr ⟨hfolded, by omega⟩⟩

end IsSimple

/-- The trees that a run visits, as a sequence along its steps. -/
lemma exists_sequence_of_visits {p : Simplify.Note → Prop} {step : Expr → Traced Expr}
    {start first next r : Expr} {limit : ℕ} {visited : List Expr}
    (h : Visits p step start first limit visited next r) :
    ∃ es : ℕ → Expr, es 0 = first ∧ (List.range visited.length).map es = visited ∧
      es visited.length = next ∧
      ∀ k < visited.length, es k ∈ visited ∧ (step (es k)).Yields p (es (k + 1)) := by
  have hlength : (visited ++ [next]).length = visited.length + 1 := List.length_append
  let es : ℕ → Expr := fun k => (visited ++ [next])[k]?.getD next
  have hes : ∀ k (hk : k < (visited ++ [next]).length), es k = (visited ++ [next])[k] := by
    intro k hk
    simp only [es, List.getElem?_eq_getElem hk, Option.getD_some]
  have hvisited : ∀ k (hk : k < visited.length), es k = visited[k] := by
    intro k hk
    rw [hes k (by omega), List.getElem_append_left hk]
  refine ⟨es, ?_, ?_, ?_, fun k hk => ⟨?_, ?_⟩⟩
  · have hhead := h.head
    rw [List.head?_eq_getElem?, List.getElem?_eq_getElem (by omega)] at hhead
    rw [hes 0 (by omega)]
    exact Option.some.inj hhead
  · refine List.ext_getElem (by simp) fun k hk hk' => ?_
    rw [List.getElem_map, List.getElem_range, hvisited k hk']
  · rw [hes _ (by omega)]
    simp
  · rw [hvisited k hk]
    exact List.getElem_mem hk
  · rw [hes k (by omega), hes (k + 1) (by omega)]
    exact List.isChain_iff_getElem.1 h.chain k (by omega)

/-- No run is broken off in the simplification of a simple tree. The induction is on the division
depth, because the runs on the sides of divisions have to settle first. -/
lemma settles_of_isSimple {e r : Expr} (h : IsSimple e) (hr : e.simplify = .ok r) :
    e.simplifyTraced.Settles r := by
  induction hdepth : e.divisionDepth using Nat.strong_induction_on generalizing e r with
  | _ depth ih =>
    have hstep : ∀ t t' : Expr, t.step = .ok t' → IsSimple t ∧ t.divisionDepth ≤ depth →
        t.stepTraced.Settles t' := by
      rintro t t' hstep ⟨ht, hdepth⟩
      refine settles_stepWith_of_sides (fun s hs s' hs' => ?_) hstep
      have hlt : s.divisionDepth < depth :=
        ((divisionDepth_lt_of_mem_treatedSides hs).trans_le
          (rewrites_flatten t).divisionDepth_le).trans_le hdepth
      exact ih s.divisionDepth hlt (ht.of_mem_treatedSides hs) hs' rfl
    have hrun := Traced.yields_true_iff.2 hr
    rw [simplifyTraced_eq_runWith] at hrun
    obtain ⟨visited, next, hvisits⟩ := exists_visits_of_yields_runWith hrun
    have hall := hvisits.forall_mem (P := fun t => IsSimple t ∧ t.divisionDepth ≤ depth)
      (fun t t' htt' ht => ⟨ht.1.of_step (hstep t t' htt'.1 ht),
        (rewrites_of_yields_stepWith (fun _ _ => rewrites_of_yields_simplifyTraced)
          htt').divisionDepth_le.trans ht.2⟩) ⟨h, hdepth.le⟩
    obtain ⟨es, rfl, hvisited, hnext, hchain⟩ := exists_sequence_of_visits hvisits
    have hsteps : ∀ k < visited.length, (es k).stepTraced.Settles (es (k + 1)) := fun k hk =>
      hstep _ _ (hchain k hk).2.1 (hall _ (List.mem_append_left [next] (hchain k hk).1))
    refine ⟨hr, ?_⟩
    rcases hvisits.ends with ⟨hrecurs, -⟩ | ⟨hlimit, -, -⟩
    · rw [simplifyTraced_eq_runWith]
      refine isUnsettled_runFrom hsteps le_rfl ?_ stepLimit 0 (Nat.zero_le _) ?_
      · rw [hvisited, hnext]
        exact hrecurs
      · exact (Nat.zero_add stepLimit).symm ▸ hvisits.length
    · exact isUnsettled_of_steps h.1 hsteps hlimit.ge h.complexity_foldedForm_lt

/-- No run is broken off in the simplification of an exact tree of complexity 16 at most. -/
theorem settles_of_simple {e r : Expr} (he : e.isExact = true) (hle : e.complexity ≤ 16)
    (hr : e.simplify = .ok r) : e.simplifyTraced.Settles r :=
  settles_of_isSimple ⟨he, Or.inl hle⟩ hr

end TermAlgebra.Expr
