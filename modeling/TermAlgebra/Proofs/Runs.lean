import Mathlib.Tactic
import Mathlib.Data.List.Chain
import TermAlgebra.Proofs.Labelling

/-!
# Divisions, steps and runs

What resolving the divisions of a tree, a step of simplification and a run of steps come to.

A run visits one tree after another until one of them comes back or its steps are used up
(`Visits`, `exists_visits`).  What a step keeps is true of all trees that are visited
(`Visits.forall_mem`), and the result is one of them (`Visits.mem`).  So resolving divisions, steps
and runs are rewritings when the treatment of the sides of divisions is one
(`rewrites_of_yields_runWith`), and simplification is one altogether
(`rewrites_of_yields_simplifyUpTo`).  Since rewriting keeps exact values, so does all of it
(`value_of_simplification`).
-/

namespace TermAlgebra.Expr

variable {p : Simplify.Note → Prop} {side : Expr → Traced Expr}

/-! ### Resolving divisions -/

/-- A division is reduced as it stands, or else after its sides have been simplified. -/
lemma yields_resolveDivision_iff {l r q : Expr} :
    (resolveDivision side l r).Yields p q ↔
      reduceQuotient? l r = .ok (some q) ∨
        reduceQuotient? l r = .ok none ∧ ∃ l' r', (side l).Yields p l' ∧ (side r).Yields p r' ∧
          if division l' r' == division l r then division l r = q
          else reduceQuotient l' r' = .ok q := by
  rw [resolveDivision, Traced.yields_bind]
  simp only [Traced.yields_liftM]
  constructor
  · rintro ⟨quotient, hquotient, h⟩
    cases quotient with
    | some c => exact Or.inl ((Traced.yields_pure.1 h) ▸ hquotient)
    | none =>
      simp only [Traced.yields_bind] at h
      obtain ⟨l', hl, r', hr, h⟩ := h
      refine Or.inr ⟨hquotient, l', r', hl, hr, ?_⟩
      split at h
      · next hsame =>
        rw [if_pos hsame]
        exact Traced.yields_pure.1 h
      · next hsame =>
        rw [if_neg hsame]
        exact Traced.yields_liftM.1 h
  · rintro (hquotient | ⟨hquotient, l', r', hl, hr, h⟩)
    · exact ⟨some q, hquotient, Traced.yields_pure.2 rfl⟩
    · refine ⟨none, hquotient, ?_⟩
      simp only [Traced.yields_bind]
      refine ⟨l', hl, r', hr, ?_⟩
      split at h
      · next hsame =>
        rw [if_pos hsame]
        exact Traced.yields_pure.2 h
      · next hsame =>
        rw [if_neg hsame]
        exact Traced.yields_liftM.2 h

/-- An exact division is reduced as it stands, or else becomes the reduced quotient of its treated
sides. -/
lemma quotient_of_resolveDivision {l r q : Expr} (he : (division l r).isExact = true)
    (hleft : ∀ l', (side l).Yields p l' → l'.isExact = true)
    (hright : ∀ r', (side r).Yields p r' → r'.isExact = true)
    (h : (resolveDivision side l r).Yields p q) :
    integerQuotient? l r = some q ∨
      integerQuotient? l r = none ∧ ∃ l' r', (side l).Yields p l' ∧ (side r).Yields p r' ∧
        (integerQuotient? l' r').getD (division l' r') = q := by
  rw [isExact_division_iff] at he
  have hreduce := reduceQuotient?_eq (isDecimalFree_of_isExact he.1)
    (isDecimalFree_of_isExact he.2)
  rcases yields_resolveDivision_iff.1 h with hq | ⟨hnone, l', r', hl, hr, hq⟩
  · rw [hreduce, Except.ok.injEq] at hq
    exact Or.inl hq
  · rw [hreduce, Except.ok.injEq] at hnone
    refine Or.inr ⟨hnone, l', r', hl, hr, ?_⟩
    have hl' := isDecimalFree_of_isExact (hleft l' hl)
    have hr' := isDecimalFree_of_isExact (hright r' hr)
    -- Both branches reduce the quotient of the treated sides.
    split at hq
    · next hsame =>
      have hsame := (beq_iff_eq_of_isDecimalFree (isDecimalFree_division_iff.2 ⟨hl', hr'⟩)).1 hsame
      obtain ⟨rfl, rfl⟩ := Expr.division.inj hsame
      rw [hnone]
      exact hq
    · rwa [reduceQuotient_eq hl' hr', Except.ok.injEq] at hq

/-- Resolving the divisions of several expressions resolves those of each. -/
lemma yields_resolveDivisionsAll_iff {es es' : List Expr} :
    (resolveDivisionsAll side es).Yields p es' ↔
      List.Forall₂ (fun e e' => (resolveDivisions side e).Yields p e') es es' := by
  induction es generalizing es' with
  | nil =>
    rw [resolveDivisionsAll, Traced.yields_pure]
    constructor
    · rintro rfl
      exact .nil
    · rintro ⟨⟩
      rfl
  | cons e es ih =>
    simp only [resolveDivisionsAll, Traced.yields_bind, Traced.yields_pure, ih]
    constructor
    · rintro ⟨e', he, es', hes, rfl⟩
      exact .cons he hes
    · rintro (_ | ⟨he, hes⟩)
      exact ⟨_, he, _, hes, rfl⟩

/-- Resolving the divisions of a node resolves those of its terms. -/
lemma yields_resolveDivisions_nary_iff {op : AssocOp} {a b r : Expr} {rest : List Expr} :
    (resolveDivisions side (nary op a b rest)).Yields p r ↔
      ∃ es, List.Forall₂ (fun e e' => (resolveDivisions side e).Yields p e') (a :: b :: rest) es ∧
        ofTerms op es = r := by
  rw [exists_forall₂_cons_cons]
  simp only [resolveDivisions, Traced.yields_bind, Traced.yields_pure,
    yields_resolveDivisionsAll_iff, ofTerms]

/-- Resolving the divisions of a negation resolves those of its operand. -/
lemma yields_resolveDivisions_negation_iff {e r : Expr} :
    (resolveDivisions side (negation e)).Yields p r ↔
      ∃ e', (resolveDivisions side e).Yields p e' ∧ negation e' = r := by
  simp only [resolveDivisions, Traced.yields_bind, Traced.yields_pure]

/-! ### Steps -/

/-- The choice between the two forms of a tree, folded again, is a rewriting of it. -/
lemma rewrites_of_choice {flat direct collected folded best : Expr}
    (hdirect : foldConstants flat = .ok direct) (hcollected : collect flat.expand = .ok collected)
    (hfolded : foldConstants collected = .ok folded)
    (hbest : foldConstants (simplestOf direct [folded]) = .ok best) : Rewrites flat best := by
  refine Rewrites.trans ?_ (rewrites_of_foldConstants hbest)
  rcases List.mem_cons.1 (simplestOf_mem direct [folded]) with hmem | hmem
  · rw [hmem]
    exact rewrites_of_foldConstants hdirect
  · rw [List.mem_singleton.1 hmem]
    exact (rewrites_expand flat).trans
      ((rewrites_of_collect hcollected).trans (rewrites_of_foldConstants hfolded))

/-- A step stops at a division, and otherwise chooses between folding the constants as they stand
and after expanding and collecting. -/
lemma yields_labelledStep_iff {e r : Expr} :
    (stepWith side e).Yields p r ↔ ∃ resolved flat,
      (resolveDivisions side e.flatten).Yields p resolved ∧
      resolved.labelled e.flatten.divisionDepth = flat ∧
      if flat.isDivision then flat = r
      else ∃ direct collected folded best, foldConstants flat = .ok direct ∧
        collect flat.expand = .ok collected ∧ foldConstants collected = .ok folded ∧
        p (.step e direct.complexity folded.complexity) ∧
        foldConstants (simplestOf direct [folded]) = .ok best ∧
        best.labelled e.flatten.divisionDepth = r := by
  unfold stepWith
  rw [Traced.yields_bind]
  refine exists_congr fun resolved => ?_
  simp only [exists_and_left, exists_eq_left']
  refine and_congr_right fun _ => ?_
  split
  · exact Traced.yields_pure
  · simp only [Traced.yields_bind, Traced.yields_liftM, Traced.yields_note, Traced.yields_pure]
    constructor
    · rintro ⟨direct, hdirect, collected, hcollected, folded, hfolded, -, hp, best, hbest, hr⟩
      exact ⟨direct, hdirect, collected, hcollected, folded, hfolded, hp, best, hbest, hr⟩
    · rintro ⟨direct, hdirect, collected, hcollected, folded, hfolded, hp, best, hbest, hr⟩
      exact ⟨direct, hdirect, collected, hcollected, folded, hfolded, (), hp, best, hbest, hr⟩

/-- Where resolving divisions leads to exact trees, there is nothing to label in a step. -/
lemma yields_stepWith_iff {e r : Expr}
    (hexact : ∀ flat, (resolveDivisions side e.flatten).Yields p flat → flat.isExact = true) :
    (stepWith side e).Yields p r ↔ ∃ flat, (resolveDivisions side e.flatten).Yields p flat ∧
      if flat.isDivision then flat = r
      else ∃ direct collected folded, foldConstants flat = .ok direct ∧
        collect flat.expand = .ok collected ∧ foldConstants collected = .ok folded ∧
        p (.step e direct.complexity folded.complexity) ∧
        foldConstants (simplestOf direct [folded]) = .ok r := by
  have hbest : ∀ {flat direct collected folded best : Expr}, flat.isExact = true →
      foldConstants flat = .ok direct → collect flat.expand = .ok collected →
      foldConstants collected = .ok folded → foldConstants (simplestOf direct [folded]) = .ok best →
      best.labelled e.flatten.divisionDepth = best := by
    intro flat direct collected folded best hflat hdirect hcollected hfolded hbest
    have hrewrites := rewrites_of_choice hdirect hcollected hfolded hbest
    exact labelled_of_isExact (hrewrites.isExact hflat) _
  rw [yields_labelledStep_iff]
  constructor
  · rintro ⟨resolved, flat, hresolved, hlabelled, h⟩
    rw [labelled_of_isExact (hexact resolved hresolved)] at hlabelled
    subst hlabelled
    refine ⟨resolved, hresolved, ?_⟩
    split at h
    · next hdivision => rwa [if_pos hdivision]
    · next hdivision =>
      obtain ⟨direct, collected, folded, best, hdirect, hcollected, hfolded, hp, hr, rfl⟩ := h
      rw [if_neg hdivision]
      refine ⟨direct, collected, folded, hdirect, hcollected, hfolded, hp, ?_⟩
      rw [hbest (hexact resolved hresolved) hdirect hcollected hfolded hr, hr]
  · rintro ⟨flat, hflat, h⟩
    refine ⟨flat, flat, hflat, labelled_of_isExact (hexact flat hflat) _, ?_⟩
    split at h
    · next hdivision => rwa [if_pos hdivision]
    · next hdivision =>
      obtain ⟨direct, collected, folded, hdirect, hcollected, hfolded, hp, hr⟩ := h
      rw [if_neg hdivision]
      exact ⟨direct, collected, folded, r, hdirect, hcollected, hfolded, hp, hr,
        hbest (hexact flat hflat) hdirect hcollected hfolded hr⟩

/-- So a step is told by the exact tree that resolving divisions leads to. -/
lemma yields_stepWith_iff_of_flat {e flat r : Expr}
    (hflat : (resolveDivisions side e.flatten).Yields p flat) (hexact : flat.isExact = true) :
    (stepWith side e).Yields p r ↔
      if flat.isDivision then flat = r
      else ∃ direct collected folded, foldConstants flat = .ok direct ∧
        collect flat.expand = .ok collected ∧ foldConstants collected = .ok folded ∧
        p (.step e direct.complexity folded.complexity) ∧
        foldConstants (simplestOf direct [folded]) = .ok r := by
  have hunique : ∀ flat', (resolveDivisions side e.flatten).Yields p flat' → flat' = flat :=
    fun flat' hflat' => Except.ok.inj (hflat'.1.symm.trans hflat.1)
  rw [yields_stepWith_iff fun flat' hflat' => hunique flat' hflat' ▸ hexact]
  constructor
  · rintro ⟨flat', hflat', h⟩
    rwa [hunique flat' hflat'] at h
  · exact fun h => ⟨flat, hflat, h⟩

/-- A step leaves an integer. -/
lemma stepWith_integer (n : ℤ) : (stepWith side (integer n)).result = .ok (integer n) := by
  rfl

/-! ### Recurring trees -/

/-- An exact tree recurs where it is equal. -/
lemma eq_of_recurs {e f : Expr} (he : e.isExact = true) (h : e.recurs f = true) : e = f := by
  unfold recurs at h
  rw [Bool.and_eq_true] at h
  exact (beq_iff_eq_of_isDecimalFree (isDecimalFree_of_isExact he)).1 h.2

/-- All expressions can be found again if each of them can. -/
lemma isStableAll_iff {es : List Expr} :
    isStableAll es = true ↔ ∀ e ∈ es, e.isStable = true := by
  induction es with
  | nil => simp [isStableAll]
  | cons e es ih => rw [isStableAll, Bool.and_eq_true, ih, List.forall_mem_cons]

/-- An exact tree is no undefined constant. -/
lemma isUndefined_of_isExact {e : Expr} (h : e.isExact = true) : e.isUndefined = false := by
  cases e with
  | decimal d => exact Bool.noConfusion h
  | _ => rfl

/-- An exact tree can be found again. -/
lemma isStable_of_isExact {e : Expr} (h : e.isExact = true) : e.isStable = true := by
  induction e using Expr.induction with
  | negation e ih =>
    have he := (hereditary_isExact.negation e).1 h
    rw [isStable, isUndefined_of_isExact he, ih he]
    rfl
  | nary op a b rest ih =>
    rw [hereditary_isExact.nary] at h
    have hstable : ∀ t ∈ a :: b :: rest, t.isStable = true := fun t ht => ih t ht (h t ht)
    simp only [List.forall_mem_cons] at hstable
    rw [isStable, hstable.1, hstable.2.1, isStableAll_iff.2 hstable.2.2]
    rfl
  | division l r hl hr =>
    rw [isExact_division_iff] at h
    rw [isStable, isUndefined_of_isExact h.1, isUndefined_of_isExact h.2, hl h.1, hr h.2]
    rfl
  | parentheses e ih =>
    have he := isExact_parentheses_iff.1 h
    rw [isStable, isUndefined_of_isExact he, ih he]
    rfl
  | _ => rfl

/-- An exact tree recurs. -/
lemma recurs_self {e : Expr} (h : e.isExact = true) : e.recurs e = true := by
  unfold recurs
  rw [isStable_of_isExact h, beq_self_eq_true]
  rfl

/-! ### Runs -/

/-- The simplest of some trees is one of them. -/
lemma canonical_mem {es : List Expr} (hne : es ≠ []) {r : Expr} (h : canonical es = .ok r) :
    r ∈ es := by
  obtain ⟨first, others, rfl⟩ := List.exists_cons_of_ne_nil hne
  rw [canonical] at h
  split at h
  · obtain rfl := Except.ok.inj h
    refine foldl_mem (fun best e => ?_) first others
    split
    · exact Or.inr rfl
    · exact Or.inl rfl
  · simp at h

/-- A list with an item of some kind starts with such an item when those before it are dropped. -/
lemma exists_split_of_any {p : Expr → Bool} {es : List Expr} (h : es.any p = true) :
    ∃ before x after, es = before ++ x :: after ∧ p x = true ∧
      es.dropWhile (fun e => !p e) = x :: after := by
  induction es with
  | nil => exact Bool.noConfusion h
  | cons e es ih =>
    by_cases he : p e = true
    · exact ⟨[], e, es, rfl, he, List.dropWhile_cons_of_neg (by rw [he]; decide)⟩
    · rw [Bool.not_eq_true] at he
      rw [List.any_cons, he, Bool.false_or] at h
      obtain ⟨before, x, after, hes, hx, hdrop⟩ := ih h
      refine ⟨e :: before, x, after, by rw [hes]; rfl, hx, ?_⟩
      rw [List.dropWhile_cons_of_pos (by rw [he]; rfl), hdrop]

/-- All expressions can be written if each of them can. -/
lemma isWritableAll_iff {es : List Expr} :
    isWritableAll es = true ↔ ∀ e ∈ es, e.isWritable = true := by
  induction es with
  | nil => simp [isWritableAll]
  | cons e es ih => rw [isWritableAll, Bool.and_eq_true, ih, List.forall_mem_cons]

/-- A node of an operation can be written if its terms can. -/
lemma isWritable_nary_iff {op : AssocOp} {a b : Expr} {rest : List Expr} :
    (nary op a b rest).isWritable = true ↔ ∀ t ∈ a :: b :: rest, t.isWritable = true := by
  rw [isWritable, Bool.and_eq_true, Bool.and_eq_true, isWritableAll_iff, List.forall_mem_cons,
    List.forall_mem_cons, and_assoc]

/-- A simplest tree is found only if all trees can be written. -/
lemma isWritable_of_canonical {es : List Expr} {r : Expr} (h : canonical es = .ok r) :
    ∀ e ∈ es, e.isWritable = true := by
  cases es with
  | nil => simp
  | cons first others =>
    rw [canonical] at h
    split at h
    · next hwritable => exact isWritableAll_iff.1 hwritable
    · simp at h

/-- Among copies of one tree there is nothing to choose. -/
lemma canonical_of_forall_eq {r : Expr} {others : List Expr} (hr : r.isWritable = true)
    (h : ∀ e ∈ others, e = r) : canonical (r :: others) = .ok r := by
  have hwritable : isWritableAll (r :: others) = true :=
    isWritableAll_iff.2 (List.forall_mem_cons.2 ⟨hr, fun e he => h e he ▸ hr⟩)
  have hmem := foldl_mem (f := fun best e : Expr => if e.simpler best then e else best)
    (fun best e => by split <;> simp) r others
  rw [canonical, if_pos hwritable]
  exact congrArg _ ((List.mem_cons.1 hmem).elim id (h _))

/-- A chain from an item that nothing else may follow consists of copies of it. -/
lemma eq_of_isChain {R : Expr → Expr → Prop} {r : Expr} (hr : ∀ e, R r e → e = r) {es : List Expr}
    (hchain : (r :: es).IsChain R) : ∀ e ∈ r :: es, e = r := by
  refine hchain.induction (fun e => e = r) _ ?_ fun _ => rfl
  rintro a b hab rfl
  exact hr b hab

/-- A chain goes on with what follows its last item. -/
lemma isChain_concat {R : Expr → Expr → Prop} {history : List Expr} {current next : Expr}
    (hchain : (history ++ [current]).IsChain R) (h : R current next) :
    (history ++ [current] ++ [next]).IsChain R := by
  rw [List.isChain_append]
  refine ⟨hchain, List.isChain_singleton next, ?_⟩
  simpa using h

/-- The trees that a run visits from `first` on, `next` being the one that would follow, and its
result.  The run ends when `next` is among the trees that were visited, or when it has visited as
many as its limit says. -/
structure Visits (p : Simplify.Note → Prop) (step : Expr → Traced Expr) (start first : Expr)
    (limit : ℕ) (visited : List Expr) (next r : Expr) : Prop where
  head : (visited ++ [next]).head? = some first
  chain : (visited ++ [next]).IsChain fun e e' => (step e).Yields p e'
  length : visited.length ≤ limit
  ends : visited.any next.recurs = true ∧
      canonical (visited.dropWhile fun e => !next.recurs e) = .ok r ∨
    visited.length = limit ∧ p (.unsettled start limit) ∧ canonical visited = .ok r

/-- A run with a result has visited trees that lead to it. -/
lemma exists_visits {step : Expr → Traced Expr} {start first current r : Expr} {steps limit : ℕ}
    {history : List Expr} (hlimit : history.length + steps = limit)
    (hhead : (history ++ [current]).head? = some first)
    (hchain : (history ++ [current]).IsChain fun e e' => (step e).Yields p e')
    (h : (runFrom step start steps history current).Yields p r) :
    ∃ visited next, Visits p step start first limit visited next r := by
  induction steps generalizing history current with
  | zero =>
    unfold runFrom at h
    split at h
    · next hrecurs =>
      exact ⟨history, current, hhead, hchain, hlimit.le,
        Or.inl ⟨hrecurs, Traced.yields_liftM.1 h⟩⟩
    · simp only [Traced.yields_bind, Traced.yields_note, Traced.yields_liftM] at h
      obtain ⟨-, hnote, hr⟩ := h
      rw [Nat.add_zero] at hlimit
      rw [hlimit] at hnote
      exact ⟨history, current, hhead, hchain, hlimit.le, Or.inr ⟨hlimit, hnote, hr⟩⟩
  | succ steps ih =>
    unfold runFrom at h
    split at h
    · next hrecurs =>
      refine ⟨history, current, hhead, hchain, ?_, Or.inl ⟨hrecurs, Traced.yields_liftM.1 h⟩⟩
      omega
    · rw [Traced.yields_bind] at h
      obtain ⟨next, hnext, h⟩ := h
      refine ih ?_ ?_ ?_ h
      · rw [List.length_append, List.length_singleton]
        omega
      · rw [List.head?_append, hhead]
        rfl
      · exact isChain_concat hchain hnext

namespace Visits

variable {step : Expr → Traced Expr} {start first next r : Expr} {limit : ℕ}
  {visited : List Expr}

/-- What a step keeps is true of all trees that are visited. -/
lemma forall_mem (h : Visits p step start first limit visited next r) {P : Expr → Prop}
    (hstep : ∀ e e', (step e).Yields p e' → P e → P e') (hfirst : P first) :
    ∀ e ∈ visited ++ [next], P e := by
  refine h.chain.induction P _ hstep fun hne => ?_
  have hhead := h.head
  rw [List.head?_eq_some_head hne, Option.some.injEq] at hhead
  exact hhead ▸ hfirst

/-- The result is one of the trees that are visited. -/
lemma mem (h : Visits p step start first limit visited next r) (hlimit : 0 < limit) :
    r ∈ visited := by
  rcases h.ends with ⟨hrecurs, hr⟩ | ⟨hlength, -, hr⟩
  · obtain ⟨before, x, after, -, -, hdrop⟩ := exists_split_of_any hrecurs
    have hne : (visited.dropWhile fun e => !next.recurs e) ≠ [] :=
      hdrop ▸ List.cons_ne_nil x after
    exact (List.dropWhile_sublist _).subset (canonical_mem hne hr)
  · refine canonical_mem ?_ hr
    rintro rfl
    exact hlimit.ne hlength

end Visits

/-- A run takes another step at a tree that is new. -/
lemma result_runFrom_of_step {step : Expr → Traced Expr} {start e next : Expr} {steps : ℕ}
    {history : List Expr} (hnew : history.any e.recurs = false) (h : (step e).result = .ok next) :
    (runFrom step start (steps + 1) history e).result =
      (runFrom step start steps (history ++ [e]) next).result := by
  rw [runFrom, hnew, if_neg Bool.false_ne_true, Traced.result_bind, h]
  rfl

/-- A run ends at a tree that comes back, with the simplest tree of the cycle. -/
lemma yields_runFrom_of_recurs {step : Expr → Traced Expr} {start e r : Expr} {steps : ℕ}
    {history : List Expr} (h : history.any e.recurs = true) :
    (runFrom step start steps history e).Yields p r ↔
      canonical (history.dropWhile fun earlier => !e.recurs earlier) = .ok r := by
  unfold runFrom
  rw [if_pos h]
  exact Traced.yields_liftM

/-- A run ends at a tree that comes back. -/
lemma result_runFrom_of_recurs {step : Expr → Traced Expr} {start e : Expr} {steps : ℕ}
    {history : List Expr} (h : history.any e.recurs = true) :
    (runFrom step start steps history e).result =
      canonical (history.dropWhile fun earlier => !e.recurs earlier) := by
  unfold runFrom
  rw [if_pos h]
  rfl

/-- A run whose first step leads to a fixed tree has this tree as its cycle. -/
lemma result_runWith_eq_canonical {e r : Expr} (hr : r.isExact = true)
    (hstep : (stepWith side e).result = .ok r) (hfixed : (stepWith side r).result = .ok r) :
    (runWith side e).result = canonical [r] := by
  have hself : r.recurs r = true := recurs_self hr
  rw [runWith, stepLimit, result_runFrom_of_step (by rfl) hstep, List.nil_append]
  by_cases hsame : r = e
  · subst hsame
    rw [result_runFrom_of_recurs (by rw [List.any_cons, hself]; rfl),
      List.dropWhile_cons_of_neg (by rw [hself]; decide)]
  · have hnew : r.recurs e = false := by
      rw [Bool.eq_false_iff]
      exact fun h => hsame (eq_of_recurs hr h)
    rw [result_runFrom_of_step (by rw [List.any_cons, hnew]; rfl) hfixed,
      result_runFrom_of_recurs (by simp [hself]), List.singleton_append,
      List.dropWhile_cons_of_pos (by rw [hnew]; rfl),
      List.dropWhile_cons_of_neg (by rw [hself]; decide)]

/-- A run of steps that comes to rest at once ends there. -/
lemma result_runWith_of_step {e r : Expr} (hr : r.isExact = true) (hwritable : r.isWritable = true)
    (hstep : (stepWith side e).result = .ok r) (hfixed : (stepWith side r).result = .ok r) :
    (runWith side e).result = .ok r := by
  rw [result_runWith_eq_canonical hr hstep hfixed, canonical, isWritableAll, hwritable]
  rfl

/-- A run of steps with a result has visited trees that lead to it. -/
lemma exists_visits_of_yields_runWith {e r : Expr} (h : (runWith side e).Yields p r) :
    ∃ visited next, Visits p (stepWith side) e e stepLimit visited next r := by
  have hstart : ([] : List Expr).length + stepLimit = stepLimit := Nat.zero_add stepLimit
  exact exists_visits hstart rfl (List.isChain_singleton e) h

/-- What a step keeps is true of the result of a run. -/
lemma runWith_invariant {P : Expr → Prop}
    (hstep : ∀ e e', (stepWith side e).Yields p e' → P e → P e') {e r : Expr} (he : P e)
    (h : (runWith side e).Yields p r) : P r := by
  obtain ⟨visited, next, hvisits⟩ := exists_visits_of_yields_runWith h
  have hmem : r ∈ visited := hvisits.mem (by decide)
  exact hvisits.forall_mem hstep he r (List.mem_append_left _ hmem)

/-! ### Rewriting by steps and runs -/

section Rewriting

variable (hside : ∀ e r, (side e).Yields p r → Rewrites e r)

include hside

/-- Resolving a division is a rewriting. -/
lemma rewrites_of_yields_resolveDivision {l r q : Expr}
    (h : (resolveDivision side l r).Yields p q) : Rewrites (division l r) q := by
  rcases yields_resolveDivision_iff.1 h with hq | ⟨hnone, l', r', hl, hr, hq⟩
  · refine .reduce ?_
    rw [reduceQuotient, hq]
    rfl
  · split at hq
    · exact hq ▸ .refl _
    · exact (Rewrites.division (hside l l' hl) (hside r r' hr)).trans (.reduce hq)

/-- Resolving divisions is a rewriting. -/
lemma rewrites_of_yields_resolveDivisions {e r : Expr}
    (h : (resolveDivisions side e).Yields p r) : Rewrites e r := by
  induction e using Expr.induction generalizing r with
  | negation e ih =>
    obtain ⟨e', he, rfl⟩ := yields_resolveDivisions_negation_iff.1 h
    exact .negation (ih he)
  | nary op a b rest ih =>
    obtain ⟨es, hes, rfl⟩ := yields_resolveDivisions_nary_iff.1 h
    exact Rewrites.ofTerms op (forall₂_of_forall (fun t ht e' => ih t ht) hes)
  | division l r hl hr => exact rewrites_of_yields_resolveDivision hside h
  | parentheses e ih => exact (Rewrites.unwrap e).trans (ih h)
  | _ =>
    obtain rfl := Traced.yields_pure.1 h
    exact .refl _

/-- Resolving the divisions of a flattened exact tree leads to an exact tree. -/
lemma isExact_of_yields_resolveDivisions_flatten {e : Expr} (he : e.isExact = true) (flat : Expr)
    (h : (resolveDivisions side e.flatten).Yields p flat) : flat.isExact = true :=
  ((rewrites_flatten e).trans (rewrites_of_yields_resolveDivisions hside h)).isExact he

/-- A step is a rewriting. -/
lemma rewrites_of_yields_stepWith {e r : Expr} (h : (stepWith side e).Yields p r) :
    Rewrites e r := by
  obtain ⟨resolved, flat, hresolved, rfl, h⟩ := yields_labelledStep_iff.1 h
  have hflat : Rewrites e (resolved.labelled e.flatten.divisionDepth) :=
    (rewrites_flatten e).trans ((rewrites_of_yields_resolveDivisions hside hresolved).trans
      (rewrites_labelled _ resolved))
  refine hflat.trans ?_
  split at h
  · exact h ▸ .refl _
  · obtain ⟨direct, collected, folded, best, hdirect, hcollected, hfolded, -, hbest, rfl⟩ := h
    exact (rewrites_of_choice hdirect hcollected hfolded hbest).trans (rewrites_labelled _ best)

/-- A run is a rewriting. -/
lemma rewrites_of_yields_runWith {e r : Expr} (h : (runWith side e).Yields p r) :
    Rewrites e r :=
  runWith_invariant (P := Rewrites e)
    (fun _ _ hstep he => he.trans (rewrites_of_yields_stepWith hside hstep)) (.refl e) h

end Rewriting

/-- Simplifying is a rewriting. -/
lemma rewrites_of_yields_simplifyUpTo {depth : ℕ} {e r : Expr}
    (h : (simplifyUpTo depth e).Yields p r) : Rewrites e r := by
  induction depth generalizing e r with
  | zero =>
    refine rewrites_of_yields_runWith (fun e r he => ?_) h
    exact Traced.yields_pure.1 he ▸ .refl e
  | succ depth ih => exact rewrites_of_yields_runWith (fun _ _ => ih) h

/-! ### Exact values -/

/-- Every pass of simplification keeps the exact value of a tree that has one, and so does
simplification, also when a run is broken off. -/
theorem value_of_simplification {ρ : String → ℚ} {e : Expr} (h : e.Defined ρ) :
    (e.flatten.Defined ρ ∧ e.flatten.value ρ = e.value ρ) ∧
      (e.expand.Defined ρ ∧ e.expand.value ρ = e.value ρ) ∧
      (∀ r, e.foldConstants = .ok r → r.Defined ρ ∧ r.value ρ = e.value ρ) ∧
      (∀ r, e.collect = .ok r → r.Defined ρ ∧ r.value ρ = e.value ρ) ∧
      (∀ r, e.simplifyDivisions = .ok r → r.Defined ρ ∧ r.value ρ = e.value ρ) ∧
      (∀ r, e.simplify = .ok r → r.Defined ρ ∧ r.value ρ = e.value ρ) ∧
      ∀ depth r, (simplifyUpTo depth e).result = .ok r → r.Defined ρ ∧ r.value ρ = e.value ρ := by
  have hsimplify : ∀ e depth r, (simplifyUpTo depth e).result = .ok r → Rewrites e r :=
    fun e depth r hr => rewrites_of_yields_simplifyUpTo (Traced.yields_true_iff.2 hr)
  refine ⟨(rewrites_flatten e).refines h, (rewrites_expand e).refines h, ?_, ?_, ?_, ?_, ?_⟩
  · exact fun r hr => (rewrites_of_foldConstants hr).refines h
  · exact fun r hr => (rewrites_of_collect hr).refines h
  · intro r hr
    refine (rewrites_of_yields_resolveDivisions ?_ (Traced.yields_true_iff.2 hr)).refines h
    exact fun e r he => hsimplify e _ r he.1
  · exact fun r hr => (hsimplify e _ r hr).refines h
  · exact fun depth r hr => (hsimplify e depth r hr).refines h

/-- For instance the simplified form of a quotient of a sum has the value of the quotient. -/
theorem value_of_simplification_quotient :
    simplify (division (sum (var "x") (var "x") []) (var "y")) =
        .ok (division (product (integer 2) (var "x") []) (var "y")) ∧
      (division (product (integer 2) (var "x") []) (var "y")).value (fun _ => 3) =
        (division (sum (var "x") (var "x") []) (var "y")).value (fun _ => 3) := by
  have hdef : (division (sum (var "x") (var "x") []) (var "y")).Defined fun _ => 3 := by
    simp [Defined, AllDefined, value]
  have hresult : simplify (division (sum (var "x") (var "x") []) (var "y")) =
      .ok (division (product (integer 2) (var "x") []) (var "y")) :=
    eq_ok_of_returns rfl (by decide +kernel)
  exact ⟨hresult, ((value_of_simplification hdef).2.2.2.2.2.1 _ hresult).2⟩

end TermAlgebra.Expr
