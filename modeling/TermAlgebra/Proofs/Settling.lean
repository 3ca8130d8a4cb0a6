import Mathlib.Tactic
import TermAlgebra.Proofs.FoldedForm
import TermAlgebra.Proofs.Nesting

/-!
# Coming to rest

When no run of steps is broken off, simplification of an exact tree ends at a tree that a step
leaves as it is, and that is its own simplified form (`simplify_idempotent`).

The measure is complexity.  A step ends at a folded tree (`folded_of_stepWith`), and from a folded
tree it does not lead to a more complicated one; if it does not lead to a simpler one either, the
next step changes nothing (`stepWith_of_folded`).  The reason is that the outermost divisions of a
tree are settled once they have been resolved (`OuterDivisions`, `SettledDivision`), so that
resolving them again leaves the tree, and ties are decided in favour of the tree as it stands.
Hence a cycle of steps has one member only (`eq_of_cycle`).

That sides of divisions settle is used for trees of a lesser division depth only (`SettlesBelow`),
so that all of this holds by induction on the division depth (`settlesBelow_simplifyTraced`).
-/

namespace TermAlgebra.Expr

/-! ### Outermost divisions -/

mutual

/-- Whether the outermost divisions of an exact expression satisfy a condition and no parentheses
stand around them. -/
def OuterDivisions (D : Expr → Expr → Prop) : Expr → Prop
  | empty => False
  | integer _ => True
  | decimal _ => False
  | var _ => True
  | negation e => OuterDivisions D e
  | nary _ a b rest => OuterDivisions D a ∧ OuterDivisions D b ∧ AllOuterDivisions D rest
  | division l r => D l r
  | parentheses _ => False

/-- Whether this holds for all the expressions. -/
def AllOuterDivisions (D : Expr → Expr → Prop) : List Expr → Prop
  | [] => True
  | e :: es => OuterDivisions D e ∧ AllOuterDivisions D es

end

/-- The outermost divisions of all expressions are those of each of them. -/
lemma allOuterDivisions_iff {D : Expr → Expr → Prop} {es : List Expr} :
    AllOuterDivisions D es ↔ ∀ e ∈ es, e.OuterDivisions D := by
  induction es with
  | nil => simp [AllOuterDivisions]
  | cons e es ih => rw [AllOuterDivisions, ih, List.forall_mem_cons]

/-- A condition on the outermost divisions is hereditary. -/
lemma hereditary_outerDivisions (D : Expr → Expr → Prop) : Hereditary (OuterDivisions D) where
  integer _ := trivial
  decimal _ _ h := h
  negation _ := Iff.rfl
  nary op a b rest := by
    rw [OuterDivisions, allOuterDivisions_iff, List.forall_mem_cons, List.forall_mem_cons]

/-- Whether a division does not reduce and has folded sides that are treated already. -/
structure SettledDivision (side : Expr → Traced Expr) (l r : Expr) : Prop where
  left : Folded l
  right : Folded r
  irreducible : integerQuotient? l r = none
  left_fixed : (side l).result = .ok l
  right_fixed : (side r).result = .ok r

section

variable {side : Expr → Traced Expr}

/-- A settled division is folded. -/
lemma SettledDivision.folded {l r : Expr} (h : SettledDivision side l r) : Folded (division l r) :=
  .division h.left h.right h.irreducible

/-- A tree whose outermost divisions are settled is exact. -/
lemma isExact_of_settled {e : Expr} (h : e.OuterDivisions (SettledDivision side)) :
    e.isExact = true := by
  induction e using Expr.induction with
  | empty => exact h.elim
  | decimal d => exact h.elim
  | integer n => rfl
  | var s => rfl
  | negation e ih => exact (hereditary_isExact.negation e).2 (ih h)
  | nary op a b rest ih =>
    rw [(hereditary_outerDivisions _).nary] at h
    rw [hereditary_isExact.nary]
    exact fun t ht => ih t ht (h t ht)
  | division l r _ _ => exact (SettledDivision.folded h).isExact
  | parentheses e _ => exact h.elim

/-- Settled divisions are resolved already. -/
lemma resolveDivisions_of_settled {e : Expr} (h : e.OuterDivisions (SettledDivision side)) :
    (resolveDivisions side e).Yields (fun _ => True) e := by
  induction e using Expr.induction with
  | empty => exact h.elim
  | decimal d => exact h.elim
  | integer n => exact Traced.yields_pure.2 rfl
  | var s => exact Traced.yields_pure.2 rfl
  | negation e ih => exact yields_resolveDivisions_negation_iff.2 ⟨e, ih h, rfl⟩
  | nary op a b rest ih =>
    rw [(hereditary_outerDivisions _).nary] at h
    refine yields_resolveDivisions_nary_iff.2 ⟨a :: b :: rest, ?_, rfl⟩
    rw [List.forall₂_same]
    exact fun t ht => ih t ht (h t ht)
  | division l r _ _ =>
    refine yields_resolveDivision_iff.2 (Or.inr ⟨?_, l, r, ?_, ?_, ?_⟩)
    · rw [reduceQuotient?_eq h.left.isDecimalFree h.right.isDecimalFree, h.irreducible]
    · exact Traced.yields_true_iff.2 h.left_fixed
    · exact Traced.yields_true_iff.2 h.right_fixed
    · rw [if_pos (beq_self_eq_true _)]
  | parentheses e _ => exact h.elim

/-! ### Settled sides -/

/-- What is known of a tree and its treated form: the latter is folded, it is treated already, and
it is no more complicated than the tree if this one is folded. -/
structure SettledAt (side : Expr → Traced Expr) (e r : Expr) : Prop where
  folded : Folded r
  fixed : (side r).result = .ok r
  complexity_le : Folded e → r.complexity ≤ e.complexity

/-- Whether a treatment settles all exact trees below a division depth. -/
def SettlesBelow (side : Expr → Traced Expr) (depth : ℕ) : Prop :=
  ∀ e r : Expr, e.isExact = true → e.divisionDepth < depth → (side e).Settles r →
    SettledAt side e r

variable {depth : ℕ} (hside : SettlesBelow side depth)

include hside

/-- A division is resolved to an integer or to a settled division. -/
lemma resolveDivision_cases {l r q : Expr} (he : (division l r).isExact = true)
    (hdepth : (division l r).divisionDepth ≤ depth) (h : (resolveDivision side l r).Settles q) :
    (∃ n, q = integer n) ∨ ∃ l' r', q = division l' r' ∧ SettledDivision side l' r' ∧
      SettledAt side l l' ∧ SettledAt side r r' := by
  obtain ⟨hlexact, hrexact⟩ := isExact_division_iff.1 he
  rw [divisionDepth, Nat.add_one_le_iff] at hdepth
  have hinteger : ∀ l r c, integerQuotient? l r = some c → ∃ n, c = integer n := by
    intro l r c hc
    obtain ⟨a, b, -, -, -, -, rfl⟩ := integerQuotient?_eq_some_iff.1 hc
    exact ⟨_, rfl⟩
  have hleft := fun l' => hside l l' hlexact ((le_max_left _ _).trans_lt hdepth)
  have hright := fun r' => hside r r' hrexact ((le_max_right _ _).trans_lt hdepth)
  rcases quotient_of_resolveDivision he (fun l' hl => (hleft l' hl).folded.isExact)
      (fun r' hr => (hright r' hr).folded.isExact) h with hq | ⟨-, l', r', hl, hr, hq⟩
  · exact Or.inl (hinteger l r q hq)
  · have hl' := hleft l' hl
    have hr' := hright r' hr
    cases hquotient : integerQuotient? l' r' with
    | none =>
      rw [hquotient] at hq
      exact Or.inr ⟨l', r', hq.symm,
        ⟨hl'.folded, hr'.folded, hquotient, hl'.fixed, hr'.fixed⟩, hl', hr'⟩
    | some c =>
      rw [hquotient] at hq
      exact Or.inl (hq ▸ hinteger l' r' c hquotient)

/-- The outermost divisions of an exact tree are settled when they have been resolved. -/
lemma outerDivisions_of_resolveDivisions {e flat : Expr} (he : e.isExact = true)
    (hdepth : e.divisionDepth ≤ depth) (h : (resolveDivisions side e).Settles flat) :
    flat.OuterDivisions (SettledDivision side) := by
  induction e using Expr.induction generalizing flat with
  | empty => exact Bool.noConfusion he
  | decimal d => exact Bool.noConfusion he
  | integer n =>
    obtain rfl := Traced.yields_pure.1 h
    trivial
  | var s =>
    obtain rfl := Traced.yields_pure.1 h
    trivial
  | negation e ih =>
    obtain ⟨e', he', rfl⟩ := yields_resolveDivisions_negation_iff.1 h
    have hsettled := ih ((hereditary_isExact.negation e).1 he) hdepth he'
    exact ((hereditary_outerDivisions _).negation e').2 hsettled
  | nary op a b rest ih =>
    have hQ := hereditary_outerDivisions (SettledDivision side)
    rw [hereditary_isExact.nary] at he
    rw [divisionDepth_nary_le_iff] at hdepth
    obtain ⟨es, hes, rfl⟩ := yields_resolveDivisions_nary_iff.1 h
    have hne : es ≠ [] := ne_nil_of_forall₂ hes (List.cons_ne_nil _ _)
    refine (hQ.ofTerms op hne).2 fun t' ht' => ?_
    obtain ⟨t, ht, htt'⟩ := exists_mem_of_forall₂ hes.flip ht'
    exact ih t ht (he t ht) (hdepth t ht) htt'
  | division l r _ _ =>
    rcases resolveDivision_cases hside he hdepth h with ⟨n, rfl⟩ | ⟨l', r', rfl, hsettled, -⟩
    · trivial
    · exact hsettled
  | parentheses e ih => exact ih (isExact_parentheses_iff.1 he) hdepth h

/-! ### Resolving the divisions of a folded tree -/

omit hside in
/-- A folded tree of the same kind as another one, and equal to it if that one is a constant. -/
structure SameShape (e flat : Expr) : Prop where
  folded : Folded flat
  kind : flat.kind = e.kind
  constant : e.isConstant = true → flat = e

omit hside in
/-- A tree of the same shape as another one is its own folded form. -/
lemma SameShape.eq_of_foldConstants {e flat direct : Expr} (h : SameShape e flat)
    (hdirect : foldConstants flat = .ok direct) : direct = flat :=
  Except.ok.inj (hdirect.symm.trans h.folded.foldConstants_eq)

omit hside in
/-- Trees of the same kind are nodes of the same operation. -/
lemma isNary_eq_of_kind {op : AssocOp} {e f : Expr} (h : e.kind = f.kind) :
    e.isNary op = f.isNary op := by
  cases e <;> cases f <;> simp_all [kind, isNary]

omit hside in
/-- Trees of the same kind are constants at the same time. -/
lemma isConstant_eq_of_kind {e f : Expr} (h : e.kind = f.kind) :
    e.isConstant = f.isConstant := by
  cases e <;> cases f <;> simp_all [kind, isConstant]

omit hside in
/-- Terms of the same shape as tidy ones are tidy. -/
lemma Tidy.of_sameShape {op : AssocOp} {es flats : List Expr} (h : Tidy op es)
    (hshape : List.Forall₂ SameShape es flats) : Tidy op flats := by
  cases hshape with
  | nil => trivial
  | @cons t flat ts flats ht hts =>
    refine ⟨?_, ?_⟩
    · rintro n rfl
      have hconstant : t.isConstant = true := (isConstant_eq_of_kind ht.kind).symm
      exact h.1 n (ht.constant hconstant).symm
    · intro u' hu'
      obtain ⟨u, hu, huu'⟩ := exists_mem_of_forall₂ hts.flip hu'
      rw [isConstant_eq_of_kind huu'.kind, h.2 u hu]

omit hside in
/-- Terms of the same shape as those of a folded node make a folded node. -/
lemma SameShape.nary {op : AssocOp} {a b : Expr} {rest flats : List Expr}
    (h : Folded (nary op a b rest)) (hshape : List.Forall₂ SameShape (a :: b :: rest) flats) :
    SameShape (nary op a b rest) (ofTerms op flats) := by
  have hback := fun t' ht' => exists_mem_of_forall₂ hshape.flip (a := t') ht'
  cases h with
  | nary _ hfolded hnary htidy =>
    have htidy' := htidy.of_sameShape hshape
    obtain _ | ⟨ha, _ | ⟨hb, hrest⟩⟩ := hshape
    refine ⟨.nary op ?_ ?_ htidy', rfl, fun hconstant => Bool.noConfusion hconstant⟩
    · intro t' ht'
      obtain ⟨t, -, htt'⟩ := hback t' ht'
      exact htt'.folded
    · intro t' ht'
      obtain ⟨t, ht, htt'⟩ := hback t' ht'
      rw [isNary_eq_of_kind htt'.kind, hnary t ht]

omit hside in
/-- Terms that do not become more complicated do not count for more; and if they do not count for
less, none of them has become simpler. -/
lemma sum_weight_le_of_forall₂ {A B S : Expr → Expr → Prop} (op : AssocOp)
    {es flats directs : List Expr} (hA : List.Forall₂ A es flats)
    (hB : List.Forall₂ B flats directs)
    (h : ∀ t ∈ es, ∀ flat direct, A t flat → B flat direct →
      direct.complexity ≤ t.complexity ∧ (direct.complexity = t.complexity → S t flat)) :
    (directs.map (weight op)).sum ≤ (es.map (weight op)).sum ∧
      ((directs.map (weight op)).sum = (es.map (weight op)).sum → List.Forall₂ S es flats) := by
  induction hA generalizing directs with
  | nil =>
    cases hB
    exact ⟨le_rfl, fun _ => .nil⟩
  | @cons t flat ts flats ht _ ih =>
    obtain _ | ⟨hdirect, hdirects⟩ := hB
    obtain ⟨hle, hS⟩ := h t List.mem_cons_self flat _ ht hdirect
    obtain ⟨hsum, hall⟩ := ih hdirects fun u hu => h u (List.mem_cons_of_mem t hu)
    simp only [List.map_cons, List.sum_cons, weight]
    refine ⟨by omega, fun heq => .cons (hS (by omega)) (hall (by omega))⟩

/-- Resolving the divisions of a folded tree and folding its constants does not make it more
complicated; and if it does not become simpler, resolving has left its shape. -/
lemma resolveDivisions_of_folded {e flat direct : Expr} (he : Folded e)
    (hdepth : e.divisionDepth ≤ depth) (h : (resolveDivisions side e).Settles flat)
    (hdirect : foldConstants flat = .ok direct) :
    direct.complexity ≤ e.complexity ∧
      (direct.complexity = e.complexity → SameShape e flat) := by
  induction he generalizing flat direct with
  | integer n =>
    obtain rfl := Traced.yields_pure.1 h
    obtain rfl := Except.ok.inj hdirect
    exact ⟨le_rfl, fun _ => ⟨.integer n, rfl, fun _ => rfl⟩⟩
  | var s =>
    obtain rfl := Traced.yields_pure.1 h
    obtain rfl := Except.ok.inj hdirect
    exact ⟨le_rfl, fun _ => ⟨.var s, rfl, fun _ => rfl⟩⟩
  | @nary op a b rest hfolded hnary htidy ih =>
    have hnode := Folded.nary op hfolded hnary htidy
    rw [divisionDepth_nary_le_iff] at hdepth
    obtain ⟨flats, hflats, rfl⟩ := yields_resolveDivisions_nary_iff.1 h
    have hsettled : ∀ t ∈ a :: b :: rest, ∀ flat, (resolveDivisions side t).Settles flat →
        flat.isExact = true :=
      fun t ht flat hflat => isExact_of_settled
        (outerDivisions_of_resolveDivisions hside (hfolded t ht).isExact (hdepth t ht) hflat)
    obtain ⟨directs, hdirects, hfold⟩ : ∃ directs,
        List.Forall₂ (fun e e' => foldConstants e = .ok e') flats directs ∧
          foldTerms op directs = .ok direct := by
      obtain _ | ⟨_, _ | ⟨_, _⟩⟩ := hflats
      exact foldConstants_nary_eq_ok_iff.1 hdirect
    have hexact : ∀ t ∈ directs, t.isExact = true := by
      intro t ht
      obtain ⟨flat, hflat, hfold⟩ := exists_mem_of_forall₂ hdirects.flip ht
      obtain ⟨u, hu, huflat⟩ := exists_mem_of_forall₂ hflats.flip hflat
      exact (rewrites_of_foldConstants hfold).isExact (hsettled u hu flat huflat)
    have hne : directs ≠ [] :=
      ne_nil_of_forall₂ hdirects (ne_nil_of_forall₂ hflats (List.cons_ne_nil _ _))
    obtain ⟨hle, hshape⟩ := sum_weight_le_of_forall₂ op hflats hdirects
      fun t ht flat direct hflat hdirect => ih t ht (hdepth t ht) hflat hdirect
    have hweight := weight_foldTerms_le hne hexact hfold
    have hnary : (nary op a b rest).weight op = ((a :: b :: rest).map (weight op)).sum :=
      weight_ofTerms op (List.cons_ne_nil a (b :: rest))
    rw [weight] at hweight hnary
    exact ⟨by omega, fun heq => SameShape.nary hnode (hshape (by omega))⟩
  | @division l r hl hr hirreducible _ _ =>
    have hexact := (Folded.division hl hr hirreducible).isExact
    rcases resolveDivision_cases hside hexact hdepth h with
      ⟨n, rfl⟩ | ⟨l', r', rfl, hsettled, hl', hr'⟩
    · obtain rfl := Except.ok.inj hdirect
      have hpos := hl.one_le_complexity
      simp only [complexity]
      exact ⟨by omega, fun heq => by omega⟩
    · rw [hsettled.folded.foldConstants_eq, Except.ok.injEq] at hdirect
      have hlle := hl'.complexity_le hl
      have hrle := hr'.complexity_le hr
      rw [← hdirect]
      simp only [complexity]
      exact ⟨by omega, fun _ => ⟨hsettled.folded, rfl, fun hconstant => Bool.noConfusion hconstant⟩⟩

/-! ### Steps -/

omit hside in
/-- The simpler one of two folded trees is folded. -/
lemma Folded.simplestOf {first e : Expr} (hfirst : Folded first) (he : Folded e) :
    Folded (simplestOf first [e]) := by
  rw [simplestOf_singleton]
  split
  · exact he
  · exact hfirst

omit hside in
/-- What a step chooses from an exact tree without division at the top is the simpler one of two
folded trees. -/
lemma candidates_of_step {p : Simplify.Note → Prop} {e flat r : Expr} (hexact : flat.isExact = true)
    (h : ∃ direct collected folded, foldConstants flat = .ok direct ∧
      collect flat.expand = .ok collected ∧ foldConstants collected = .ok folded ∧
      p (.step e direct.complexity folded.complexity) ∧
      foldConstants (simplestOf direct [folded]) = .ok r) :
    ∃ direct collected folded, foldConstants flat = .ok direct ∧
      collect flat.expand = .ok collected ∧ foldConstants collected = .ok folded ∧
      Folded direct ∧ Folded folded ∧ r = simplestOf direct [folded] := by
  obtain ⟨direct, collected, folded, hdirect, hcollected, hfolded, -, hr⟩ := h
  have hcollectedexact : collected.isExact = true :=
    (rewrites_of_collect hcollected).isExact ((rewrites_expand flat).isExact hexact)
  have hdirectfolded := folded_of_foldConstants hexact hdirect
  have hfoldedfolded := folded_of_foldConstants hcollectedexact hfolded
  have hbest := hdirectfolded.simplestOf hfoldedfolded
  rw [hbest.foldConstants_eq, Except.ok.injEq] at hr
  exact ⟨direct, collected, folded, hdirect, hcollected, hfolded, hdirectfolded, hfoldedfolded,
    hr.symm⟩

/-- A step of an exact tree ends at a division whose sides are settled, or at the simpler one of two
folded trees. -/
lemma stepWith_cases {e e' : Expr} (he : e.isExact = true) (hdepth : e.divisionDepth ≤ depth)
    (h : (stepWith side e).Settles e') :
    ∃ flat, (resolveDivisions side e.flatten).Settles flat ∧
      flat.OuterDivisions (SettledDivision side) ∧
      (flat.isDivision = true ∧ e' = flat ∨
        flat.isDivision = false ∧ ∃ direct collected folded, foldConstants flat = .ok direct ∧
          collect flat.expand = .ok collected ∧ foldConstants collected = .ok folded ∧
          Folded direct ∧ Folded folded ∧ e' = simplestOf direct [folded]) := by
  have hflatten := rewrites_flatten e
  have hall : ∀ flat, (resolveDivisions side e.flatten).Settles flat →
      flat.OuterDivisions (SettledDivision side) := fun flat hflat =>
    outerDivisions_of_resolveDivisions hside (hflatten.isExact he)
      (hflatten.divisionDepth_le.trans hdepth) hflat
  obtain ⟨flat, hflat, h⟩ :=
    (yields_stepWith_iff fun flat hflat => isExact_of_settled (hall flat hflat)).1 h
  have hsettled := hall flat hflat
  refine ⟨flat, hflat, hsettled, ?_⟩
  split at h
  · next hdivision => exact Or.inl ⟨hdivision, h.symm⟩
  · next hdivision =>
    have hexact := isExact_of_settled hsettled
    exact Or.inr ⟨Bool.eq_false_iff.2 hdivision,
      candidates_of_step (p := fun n => n.isUnsettled = false) (e := e) hexact h⟩

/-- A step of an exact tree ends at a folded one. -/
lemma folded_of_stepWith {e e' : Expr} (he : e.isExact = true) (hdepth : e.divisionDepth ≤ depth)
    (h : (stepWith side e).Settles e') : Folded e' := by
  obtain ⟨flat, -, hsettled, h⟩ := stepWith_cases hside he hdepth h
  rcases h with ⟨hdivision, rfl⟩ | ⟨-, direct, collected, folded, -, -, -, hdirect, hfolded, rfl⟩
  · cases e' with
    | division l r => exact SettledDivision.folded hsettled
    | _ => exact Bool.noConfusion hdivision
  · exact hdirect.simplestOf hfolded

/-- A step does not make a folded tree more complicated; and if it does not make it simpler, the
next step leaves the tree as it is. -/
lemma stepWith_of_folded {e e' : Expr} (he : Folded e) (hdepth : e.divisionDepth ≤ depth)
    (h : (stepWith side e).Settles e') :
    e'.complexity ≤ e.complexity ∧
      (e'.complexity = e.complexity → (stepWith side e').result = .ok e') := by
  have hfolded := folded_of_stepWith hside he.isExact hdepth h
  obtain ⟨flat, hflat, hsettled, h⟩ := stepWith_cases hside he.isExact hdepth h
  rw [he.flatten_eq] at hflat
  have hagain : e' = flat → (resolveDivisions side e'.flatten).Yields (fun _ => True) e' := by
    rintro rfl
    rw [hfolded.flatten_eq]
    exact resolveDivisions_of_settled hsettled
  rcases h with ⟨hdivision, rfl⟩ |
    ⟨hdivision, direct, collected, folded, hdirect, hcollected, hfold, -, -, rfl⟩
  · obtain ⟨hle, -⟩ := resolveDivisions_of_folded hside he hdepth hflat hfolded.foldConstants_eq
    refine ⟨hle, fun _ => Traced.yields_true_iff.1 ?_⟩
    rw [yields_stepWith_iff_of_flat (hagain rfl) hfolded.isExact, if_pos hdivision]
  · obtain ⟨hle, hshape⟩ := resolveDivisions_of_folded hside he hdepth hflat hdirect
    rw [simplestOf_singleton] at hagain hfolded ⊢
    split
    · exact ⟨by omega, fun heq => by omega⟩
    · next hsimpler =>
      refine ⟨hle, fun heq => ?_⟩
      rw [if_neg hsimpler] at hagain hfolded
      obtain rfl := (hshape heq).eq_of_foldConstants hdirect
      refine Traced.yields_true_iff.1 ?_
      rw [yields_stepWith_iff_of_flat (hagain rfl) hfolded.isExact,
        if_neg (by rw [hdivision]; exact Bool.false_ne_true)]
      refine ⟨direct, collected, folded, hdirect, hcollected, hfold, trivial, ?_⟩
      rw [simplestOf_singleton, if_neg hsimpler]
      exact hdirect

/-! ### Runs -/

variable (hrewrites : ∀ e r : Expr, (side e).Settles r → Rewrites e r)

include hrewrites

omit hside in
/-- A step makes no division deeper. -/
lemma divisionDepth_le_of_stepWith {e e' : Expr} (hdepth : e.divisionDepth ≤ depth)
    (h : (stepWith side e).Settles e') : e'.divisionDepth ≤ depth :=
  (rewrites_of_yields_stepWith hrewrites h).divisionDepth_le.trans hdepth

/-- Steps from a folded tree lead to folded trees that are no more complicated. -/
lemma folded_of_chain {e : Expr} {es : List Expr} (he : Folded e) (hdepth : e.divisionDepth ≤ depth)
    (hchain : (e :: es).IsChain fun a b => (stepWith side a).Settles b) :
    ∀ t ∈ e :: es, Folded t ∧ t.divisionDepth ≤ depth ∧ t.complexity ≤ e.complexity := by
  refine hchain.induction _ _ ?_ fun _ => ⟨he, hdepth, le_rfl⟩
  rintro a b hab ⟨ha, hadepth, hle⟩
  exact ⟨folded_of_stepWith hside ha.isExact hadepth hab,
    divisionDepth_le_of_stepWith hrewrites hadepth hab,
    (stepWith_of_folded hside ha hadepth hab).1.trans hle⟩

/-- A cycle of steps from a folded tree back to it consists of this tree alone. -/
lemma eq_of_cycle {x : Expr} {others : List Expr} (hx : Folded x) (hdepth : x.divisionDepth ≤ depth)
    (hchain : (x :: (others ++ [x])).IsChain fun e e' => (stepWith side e).Settles e') :
    (stepWith side x).Settles x ∧ ∀ e ∈ others, e = x := by
  obtain ⟨y, later, hlater⟩ := List.exists_cons_of_ne_nil (List.concat_ne_nil x others)
  have hmem : x ∈ y :: later := hlater ▸ List.mem_append_right others List.mem_cons_self
  rw [hlater, List.isChain_cons_cons] at hchain
  obtain ⟨hxy, hchain⟩ := hchain
  -- From `y` on nothing gets more complicated, so `y` is as complicated as `x`, and is fixed.
  have hy := folded_of_stepWith hside hx.isExact hdepth hxy
  have hydepth := divisionDepth_le_of_stepWith hrewrites hdepth hxy
  have hback := (folded_of_chain hside hrewrites hy hydepth hchain x hmem).2.2
  obtain ⟨hle, hfixed⟩ := stepWith_of_folded hside hx hdepth hxy
  have hyfixed := hfixed (le_antisymm hle hback)
  have hsame : ∀ t ∈ y :: later, t = y :=
    eq_of_isChain (fun t hyt => Except.ok.inj (hyt.1.symm.trans hyfixed)) hchain
  obtain rfl : x = y := hsame x hmem
  exact ⟨hxy, fun e he => hsame e (hlater ▸ List.mem_append_left [x] he)⟩

/-- Where a chain of steps comes back to a tree, this tree is folded and a step leaves it as it is,
so that the cycle consists of this tree alone. -/
lemma cycle_of_recurs {visited : List Expr} {next : Expr}
    (hexact : ∀ t ∈ visited ++ [next], t.isExact = true ∧ t.divisionDepth ≤ depth)
    (hchain : (visited ++ [next]).IsChain fun e e' => (stepWith side e).Settles e')
    (hrecurs : visited.any next.recurs = true) :
    ∃ before others, visited = before ++ next :: others ∧
      visited.dropWhile (fun t => !next.recurs t) = next :: others ∧ Folded next ∧
      (stepWith side next).Settles next ∧ ∀ e ∈ others, e = next := by
  obtain ⟨before, x, others, hvisited, hnext, hdrop⟩ := exists_split_of_any hrecurs
  obtain ⟨hnextexact, hnextdepth⟩ := hexact next (List.mem_append_right visited List.mem_cons_self)
  obtain rfl : next = x := eq_of_recurs hnextexact hnext
  -- The tree that comes back is folded, because a step has led to it.
  have hfolded : Folded next := by
    have hne : visited ≠ [] := by
      rw [hvisited]
      simp
    have hlast := List.getLast_mem hne
    obtain ⟨hlastexact, hlastdepth⟩ := hexact _ (List.mem_append_left [next] hlast)
    refine folded_of_stepWith hside hlastexact hlastdepth ?_
    exact (List.isChain_append.1 hchain).2.2 _ (List.getLast?_eq_some_getLast hne) next rfl
  have hcycle : (next :: (others ++ [next])).IsChain fun e e' => (stepWith side e).Settles e' := by
    rw [hvisited, List.append_assoc] at hchain
    exact (List.isChain_append.1 hchain).2.1
  obtain ⟨hfixed, hothers⟩ := eq_of_cycle hside hrewrites hfolded hnextdepth hcycle
  exact ⟨before, others, hvisited, hdrop, hfolded, hfixed, hothers⟩

omit hside in
/-- Steps from an exact tree lead to exact trees with divisions that are no deeper. -/
lemma isExact_of_stepWith {e e' : Expr} (h : (stepWith side e).Settles e')
    (he : e.isExact = true ∧ e.divisionDepth ≤ depth) :
    e'.isExact = true ∧ e'.divisionDepth ≤ depth :=
  ⟨(rewrites_of_yields_stepWith hrewrites h).isExact he.1,
    divisionDepth_le_of_stepWith hrewrites he.2 h⟩

omit hside hrewrites in
/-- How a run comes to rest at a tree: after fewer steps than its limit it reaches the tree, which a
step leaves as it is. -/
structure RestsAt (side : Expr → Traced Expr) (e r : Expr) : Prop where
  folded : Folded r
  isWritable : r.isWritable = true
  settles : (stepWith side r).Settles r
  complexity_le : Folded e → r.complexity ≤ e.complexity
  reached : ∃ before : List Expr, before.length < stepLimit ∧
    (before ++ [r]).head? = some e ∧
    (before ++ [r]).IsChain fun e e' => (stepWith side e).result = .ok e'

omit hside hrewrites in
/-- A step leaves the tree at which a run comes to rest as it is. -/
lemma RestsAt.fixed {e r : Expr} (h : RestsAt side e r) : (stepWith side r).result = .ok r :=
  h.settles.1

/-- A run of an exact tree that is not broken off comes to rest. -/
lemma restsAt_of_runWith {e r : Expr} (he : e.isExact = true) (hdepth : e.divisionDepth ≤ depth)
    (h : (runWith side e).Settles r) : RestsAt side e r := by
  obtain ⟨visited, next, hvisits⟩ := exists_visits_of_yields_runWith h
  obtain ⟨hrecurs, hr⟩ : visited.any next.recurs = true ∧
      canonical (visited.dropWhile fun t => !next.recurs t) = .ok r :=
    hvisits.ends.resolve_right fun hbroken => Bool.noConfusion hbroken.2.1
  have hexact := hvisits.forall_mem
    (P := fun t => t.isExact = true ∧ t.divisionDepth ≤ depth)
    (fun a b => isExact_of_stepWith hrewrites) ⟨he, hdepth⟩
  have hchain := hvisits.chain
  obtain ⟨before, others, hvisited, hdrop, hfolded, hfixed, hothers⟩ :=
    cycle_of_recurs hside hrewrites hexact hchain hrecurs
  rw [hdrop] at hr
  obtain rfl : r = next := by
    rcases List.mem_cons.1 (canonical_mem (List.cons_ne_nil next others) hr) with h | h
    · exact h
    · exact hothers r h
  refine ⟨hfolded, isWritable_of_canonical hr r List.mem_cons_self, hfixed, fun hefolded => ?_,
    before, ?_, ?_, ?_⟩
  · obtain ⟨rest, hrest⟩ := List.head?_eq_some_iff.1 hvisits.head
    rw [hrest] at hchain
    have hmem : r ∈ e :: rest := hrest ▸ List.mem_append_right visited List.mem_cons_self
    exact (folded_of_chain hside hrewrites hefolded hdepth hchain r hmem).2.2
  · have hlength := hvisits.length
    rw [hvisited, List.length_append, List.length_cons] at hlength
    omega
  · have hhead := hvisits.head
    rw [hvisited] at hhead
    cases before with
    | nil => exact hhead
    | cons b before => exact hhead
  · rw [hvisited, List.append_assoc, List.cons_append, ← List.singleton_append,
      ← List.append_assoc] at hchain
    exact (List.isChain_append.1 hchain).1.imp fun a b hab => hab.1

end

/-! ### Simplification comes to rest -/

/-- Simplification settles trees of every division depth. -/
lemma settlesBelow_simplifyTraced (depth : ℕ) : SettlesBelow simplifyTraced depth := by
  induction depth with
  | zero => exact fun e r _ hdepth _ => absurd hdepth (Nat.not_lt_zero _)
  | succ depth ih =>
    intro e r he hdepth h
    rw [simplifyTraced_eq_runWith] at h
    have hrests := restsAt_of_runWith ih (fun _ _ => rewrites_of_yields_simplifyTraced) he
      (Nat.le_of_lt_succ hdepth) h
    refine ⟨hrests.folded, ?_, hrests.complexity_le⟩
    rw [simplifyTraced_eq_runWith]
    exact result_runWith_of_step hrests.folded.isExact hrests.isWritable hrests.fixed
      hrests.fixed

/-- A run that is not broken off comes to rest at the simplified form. -/
lemma restsAt_of_settles {e r : Expr} (he : e.isExact = true) (h : e.simplifyTraced.Settles r) :
    RestsAt simplifyTraced e r := by
  rw [simplifyTraced_eq_runWith] at h
  exact restsAt_of_runWith (settlesBelow_simplifyTraced e.divisionDepth)
    (fun _ _ => rewrites_of_yields_simplifyTraced) he le_rfl h

/-- The tree after a number of steps. -/
def stepTimes : ℕ → Expr → Except Fault Expr
  | 0, e => .ok e
  | k + 1, e => do stepTimes k (← e.step)

/-- A tree that a step leaves as it is stays so. -/
lemma stepTimes_of_fixed {e : Expr} (h : e.step = .ok e) (k : ℕ) : stepTimes k e = .ok e := by
  induction k with
  | zero => rfl
  | succ k ih => rw [stepTimes, h]; exact ih

/-- Steps from tree to tree add up. -/
lemma stepTimes_of_chain {e r : Expr} {before : List Expr} (k : ℕ)
    (hhead : (before ++ [r]).head? = some e)
    (hchain : (before ++ [r]).IsChain fun a b => a.step = .ok b) :
    stepTimes (before.length + k) e = stepTimes k r := by
  induction before generalizing e with
  | nil =>
    obtain rfl := Option.some.inj hhead
    rw [List.length_nil, Nat.zero_add]
  | cons b before ih =>
    obtain rfl := Option.some.inj hhead
    obtain ⟨next, later, hlater⟩ := List.exists_cons_of_ne_nil (List.concat_ne_nil r before)
    rw [List.cons_append, hlater, List.isChain_cons_cons] at hchain
    rw [List.length_cons, Nat.add_right_comm, stepTimes, hchain.1]
    exact ih (by rw [hlater]; rfl) (hlater ▸ hchain.2)

/-- If no run is broken off, simplification ends at a tree that a step leaves as it is: the steps
from some number on all lead to it, and it is its own simplified form. -/
theorem simplify_idempotent {e r : Expr} (he : e.isExact = true)
    (h : e.simplifyTraced.Settles r) :
    r.step = .ok r ∧ r.simplify = .ok r ∧
      ∃ k < stepLimit, ∀ j, k ≤ j → stepTimes j e = .ok r := by
  have hsettled := settlesBelow_simplifyTraced _ e r he (Nat.lt_succ_self _) h
  rw [simplifyTraced_eq_runWith] at h
  have hrests := restsAt_of_runWith (settlesBelow_simplifyTraced e.divisionDepth)
    (fun _ _ => rewrites_of_yields_simplifyTraced) he le_rfl h
  refine ⟨hrests.fixed, hsettled.fixed, ?_⟩
  obtain ⟨before, hlength, hhead, hchain⟩ := hrests.reached
  refine ⟨before.length, hlength, fun j hj => ?_⟩
  obtain ⟨k, rfl⟩ := Nat.exists_eq_add_of_le hj
  rw [stepTimes_of_chain k hhead hchain]
  exact stepTimes_of_fixed hrests.fixed k

/-- For instance a quotient whose sides are sums. -/
theorem simplify_idempotent_quotient :
    (division (product (integer 2) (var "x") []) (integer 4)).simplify =
      .ok (division (product (integer 2) (var "x") []) (integer 4)) := by
  have hsettles : (division (sum (var "x") (var "x") [])
      (sum (integer 1) (integer 3) [])).simplifyTraced.Settles
        (division (product (integer 2) (var "x") []) (integer 4)) :=
    ⟨eq_ok_of_returns rfl (by decide +kernel), by decide +kernel⟩
  exact (simplify_idempotent rfl hsettles).2.1

end TermAlgebra.Expr
