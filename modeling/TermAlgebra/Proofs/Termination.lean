import Mathlib.Tactic
import TermAlgebra.Proofs.Constancy
import TermAlgebra.Proofs.Nesting

/-!
# Termination

Why the two recursions of simplification that do not follow the structure of a tree come to an end.

Collecting treats the two parts of a factored sum again.  Taking powers out of a term removes a node
for every factor that goes (`shrinks_strike`), and something goes from every term that has the
factor, so that both parts have fewer nodes that are no constants than the sum
(`openSize_cofactor_lt` and `openSize_remainder_lt`).  The bound in `collectUpTo` is therefore never
reached, and collecting satisfies an equation without it (`collect_eq_collectWith`).

Simplification treats sides of divisions in the trees that its steps lead to (`Calls`).  No pass
makes divisions deeper, so these sides are less deep than the tree that is simplified, and there is
no endless chain of them (`divisionDepth_descends`).
-/

namespace TermAlgebra

open TermAlgebra.Expr (openSizeAll)

/-! ### Sizes -/

namespace Expr

/-- Agreeing expressions are both open or both constant. -/
lemma openSize_pos_of_beq {e f : Expr} (h : (e == f) = true) (he : 0 < e.openSize) :
    0 < f.openSize := by
  change agrees e f = true at h
  cases e <;> cases f <;> simp_all [agrees, openSize]

/-- The size of a node is that of its terms and one more. -/
lemma openSize_nary (op : AssocOp) (a b : Expr) (rest : List Expr) :
    (nary op a b rest).openSize = openSizeAll (a :: b :: rest) + 1 := by
  simp only [openSize, openSizeAll]
  omega

/-- The sizes of two lists in a row are added up. -/
lemma openSizeAll_append (es fs : List Expr) :
    openSizeAll (es ++ fs) = openSizeAll es + openSizeAll fs := by
  simp only [openSizeAll_eq_sum, List.map_append, List.sum_append]

/-- A term is no larger than all terms together. -/
lemma openSize_le_openSizeAll {es : List Expr} {t : Expr} (ht : t ∈ es) :
    t.openSize ≤ openSizeAll es := by
  rw [openSizeAll_eq_sum]
  exact List.single_le_sum (fun _ _ => Nat.zero_le _) t.openSize (List.mem_map_of_mem ht)

/-- What an operation needs for its node, if it needs one. -/
def nodeSize (es : List Expr) : ℕ :=
  if 2 ≤ es.length then 1 else 0

/-- Gathering terms makes at most one more node. -/
lemma openSize_gather_le (op : AssocOp) (es : List Expr) :
    (gather op es).openSize ≤ openSizeAll es + nodeSize es := by
  have hsub : (es.filter fun e => !e.isEmpty).Sublist es := List.filter_sublist
  have hsize : openSizeAll (es.filter fun e => !e.isEmpty) ≤ openSizeAll es := by
    rw [openSizeAll_eq_sum, openSizeAll_eq_sum]
    exact (hsub.map openSize).sum_le_sum fun _ _ => Nat.zero_le _
  have hlength := hsub.length_le
  rw [gather, nodeSize]
  generalize (es.filter fun e => !e.isEmpty) = kept at hsize hlength
  rcases kept with _ | ⟨a, _ | ⟨b, rest⟩⟩
  · exact Nat.zero_le _
  · rw [openSizeAll, openSizeAll] at hsize
    rw [ofTerms]
    omega
  · rw [ofTerms, openSize_nary]
    rw [List.length_cons, List.length_cons] at hlength
    rw [if_pos (by omega)]
    omega

end Expr

/-! ### Taking powers out -/

namespace Powers

/-- Taking a factor from powers keeps the bases, one of which agrees with it, and leaves one factor
less. -/
lemma length_elements_of_take? {f : Expr} {powers fewer : Powers}
    (h : take? f powers = some fewer) :
    fewer.map Prod.fst = powers.map Prod.fst ∧ (∃ b ∈ powers.map Prod.fst, (b == f) = true) ∧
      powers.elements.length = fewer.elements.length + 1 := by
  induction powers generalizing fewer with
  | nil => exact nomatch h
  | cons power powers ih =>
    obtain ⟨b, n⟩ := power
    rw [take?_cons] at h
    split at h
    · next hbf =>
      cases n with
      | zero => exact nomatch h
      | succ n =>
        obtain rfl := Option.some.inj h
        refine ⟨rfl, ⟨b, List.mem_cons_self, hbf⟩, ?_⟩
        simp only [elements_cons, List.length_append, List.length_replicate]
        omega
    · obtain ⟨others, hothers, rfl⟩ := Option.map_eq_some_iff.1 h
      obtain ⟨hbases, ⟨g, hg, hgf⟩, hlength⟩ := ih hothers
      refine ⟨by rw [List.map_cons, List.map_cons, hbases],
        ⟨g, List.mem_cons_of_mem b hg, hgf⟩, ?_⟩
      simp only [elements_cons, List.length_append, List.length_replicate, hlength]
      omega

/-- What agrees with a base can be taken if all exponents are positive. -/
lemma take?_ne_none {b f : Expr} {powers : Powers} (hpos : ∀ power ∈ powers, 0 < power.2)
    (hb : b ∈ powers.map Prod.fst) (hbf : (b == f) = true) : take? f powers ≠ none := by
  induction powers with
  | nil => exact absurd hb List.not_mem_nil
  | cons power powers ih =>
    obtain ⟨c, n⟩ := power
    rw [List.forall_mem_cons] at hpos
    rw [take?_cons]
    split
    · cases n with
      | zero => exact absurd hpos.1 (lt_irrefl 0)
      | succ n => exact Option.some_ne_none _
    · next hcf =>
      have hmem : b ∈ powers.map Prod.fst := by
        refine (List.mem_cons.1 hb).resolve_left ?_
        rintro rfl
        exact hcf hbf
      exact mt Option.map_eq_none_iff.1 (ih hpos.2 hmem)

end Powers

namespace Expr

/-- The size of what is left of a term, with a node for its product and one for its sign. -/
def Remains.openSize (remains : Remains) : ℕ :=
  openSizeAll remains.left + nodeSize remains.left + remains.negated.toNat

/-- A quotient is no larger than what is left of the term. -/
lemma openSize_divideOut_le (t : Expr) (powers : Powers) :
    (t.divideOut powers).openSize ≤ (t.strike powers).openSize := by
  have hgather := openSize_gather_le .product (t.strike powers).left
  have hquotient : (if (gather .product (t.strike powers).left).isEmpty then integer 1
      else gather .product (t.strike powers).left).openSize ≤
        openSizeAll (t.strike powers).left + nodeSize (t.strike powers).left := by
    split
    · exact Nat.zero_le _
    · exact hgather
  rw [divideOut_eq, Remains.openSize]
  split
  · next hnegated =>
    rw [hnegated, Bool.toNat_true, openSize]
    omega
  · omega

/-- What is needed of the bases of powers for striking to make terms smaller. -/
def OpenBases (powers : Powers) : Prop :=
  ∀ b ∈ powers.map Prod.fst, 0 < b.openSize

/-- How striking powers makes something smaller: what is left has one node less for every factor
that goes, and if nothing goes then no factor could. -/
structure Shrinks (size : ℕ) (factors : List Expr) (powers : Powers) (remains : Remains)
    (left : ℕ) : Prop where
  bases : remains.powers.map Prod.fst = powers.map Prod.fst
  size_le : left + powers.elements.length ≤ size + remains.powers.elements.length
  unchanged_or_lt : remains.powers = powers ∧ (∀ g ∈ factors, powers.take? g = none) ∨
    remains.powers.elements.length < powers.elements.length

/-- Striking powers out of several terms, one after another. -/
lemma shrinks_strikeAll {es : List Expr} (h : ∀ e ∈ es, ∀ powers : Powers, OpenBases powers →
    Shrinks e.openSize e.factors powers (e.strike powers) (e.strike powers).openSize)
    {powers : Powers} (hpowers : OpenBases powers) :
    Shrinks (openSizeAll es) (factorsAll es) powers (strikeAll es powers)
      (openSizeAll (strikeAll es powers).left + (strikeAll es powers).negated.toNat) := by
  induction es generalizing powers with
  | nil => exact ⟨rfl, le_rfl, Or.inl ⟨rfl, fun g hg => absurd hg List.not_mem_nil⟩⟩
  | cons e es ih =>
    rw [List.forall_mem_cons] at h
    have hfirst := h.1 powers hpowers
    have hopen : OpenBases (e.strike powers).powers := by
      unfold OpenBases
      rw [hfirst.bases]
      exact hpowers
    have hrest := ih h.2 hopen
    refine ⟨hrest.bases.trans hfirst.bases, ?_, ?_⟩
    · have hle := hfirst.size_le
      have hle' := hrest.size_le
      have hsign : ((e.strike powers).negated ^^
          (strikeAll es (e.strike powers).powers).negated).toNat ≤
            (e.strike powers).negated.toNat +
              (strikeAll es (e.strike powers).powers).negated.toNat := by
        cases (e.strike powers).negated <;>
          cases (strikeAll es (e.strike powers).powers).negated <;> decide
      rw [Remains.openSize] at hle
      simp only [strikeAll, Remains.append, openSizeAll_append, openSizeAll]
      omega
    · rcases hfirst.unchanged_or_lt with ⟨hsame, hnone⟩ | hlt
      · rw [strikeAll, Remains.append]
        rw [hsame] at hrest ⊢
        refine hrest.unchanged_or_lt.imp (And.imp_right fun hnone' => ?_) id
        rw [factorsAll, List.forall_mem_append]
        exact ⟨hnone, hnone'⟩
      · refine Or.inr (lt_of_le_of_lt ?_ hlt)
        rcases hrest.unchanged_or_lt with ⟨hsame, -⟩ | hlt'
        · exact (congrArg (fun powers : Powers => powers.elements.length) hsame).le
        · exact hlt'.le

/-- Striking powers out of a term. -/
lemma shrinks_strike (e : Expr) {powers : Powers} (hpowers : OpenBases powers) :
    Shrinks e.openSize e.factors powers (e.strike powers) (e.strike powers).openSize := by
  induction e using inductionOnFactors generalizing powers with
  | negation e ih =>
    have h := ih hpowers
    refine ⟨h.bases, ?_, h.unchanged_or_lt⟩
    have hle := h.size_le
    have hsign : (!(e.strike powers).negated).toNat ≤ (e.strike powers).negated.toNat + 1 := by
      cases (e.strike powers).negated <;> decide
    rw [Remains.openSize] at hle
    simp only [strike, Remains.openSize, Expr.openSize]
    omega
  | product a b rest ih =>
    have h := shrinks_strikeAll (fun t ht _ hpowers => ih t ht hpowers) hpowers
    rw [strike_product]
    refine ⟨h.bases, ?_, h.unchanged_or_lt⟩
    have hle := h.size_le
    have hnode : nodeSize (strikeAll (a :: b :: rest) powers).left ≤ 1 := by
      unfold nodeSize
      split <;> omega
    rw [Remains.openSize, openSize_nary]
    omega
  | whole e he =>
    rw [strike_of_isWhole he]
    cases htake : powers.take? e with
    | none =>
      refine ⟨rfl, ?_, Or.inl ⟨rfl, fun g hg => ?_⟩⟩
      · simp [Remains.openSize, openSizeAll, nodeSize]
      · rw [factors_of_isWhole he] at hg
        split at hg
        · exact absurd hg List.not_mem_nil
        · rw [List.mem_singleton.1 hg, htake]
    | some fewer =>
      obtain ⟨hbases, ⟨b, hb, hbe⟩, hlength⟩ := Powers.length_elements_of_take? htake
      have hpos := openSize_pos_of_beq hbe (hpowers b hb)
      refine ⟨hbases, ?_, Or.inr ?_⟩
      · simp only [Remains.openSize, openSizeAll, nodeSize, List.length_nil, Bool.toNat_false]
        simp only [Nat.reduceLeDiff, if_false]
        omega
      · simp only
        omega

/-! ### Parts of a factored sum -/

section Parts

variable {es : List Expr} {f : Expr}

/-- A base of what is taken out is open. -/
lemma openBases_companionPowers (f : Expr) (es : List Expr) :
    OpenBases (companionPowers f es) := by
  intro g hg
  rw [bases_companionPowers] at hg
  obtain ⟨t, -, hgt⟩ := mem_factorsAll.1 (mem_factorsAll_of_mem_companions hg)
  have hle := length_factors_le_openSize g
  rwa [factors_of_mem_factors hgt] at hle

variable (hf : f ∈ (factorsAll es).eraseDups)

include hf

/-- A term that has the factor becomes smaller when it is divided by it. -/
lemma openSize_divideOut_lt {t : Expr} (ht : t ∈ holders f es) :
    (t.divideOut (companionPowers f es)).openSize < t.openSize := by
  have hfactor := mem_of_mem_eraseDups hf
  have hshrinks := shrinks_strike t (openBases_companionPowers f es)
  have hquotient := openSize_divideOut_le t (companionPowers f es)
  have hle := hshrinks.size_le
  rcases hshrinks.unchanged_or_lt with ⟨-, hnone⟩ | hlt
  · obtain ⟨g, hg, hfg⟩ := List.contains_iff_exists_mem_beq.1 (List.mem_filter.1 ht).2
    have hpos : ∀ power ∈ companionPowers f es, 0 < power.2 := by
      intro power hpower
      obtain ⟨c, hc, rfl⟩ := List.mem_map.1 hpower
      exact commonExponent_pos hfactor hc
    have hbase : f ∈ (companionPowers f es).map Prod.fst := by
      rw [bases_companionPowers]
      exact mem_companions_self hf
    exact absurd (hnone g hg) (Powers.take?_ne_none hpos hbase hfg)
  · omega

/-- The terms that have the factor are no smaller than their quotients with one node more. -/
lemma openSizeAll_holders_quotients :
    openSizeAll ((holders f es).map fun t => t.divideOut (companionPowers f es)) +
      (holders f es).length ≤ openSizeAll (holders f es) := by
  have hsum : ((holders f es).map fun t => (t.divideOut (companionPowers f es)).openSize + 1).sum ≤
      ((holders f es).map openSize).sum :=
    List.sum_le_sum fun t ht => openSize_divideOut_lt hf ht
  rw [List.sum_map_add, List.map_const', List.sum_replicate, smul_eq_mul, mul_one] at hsum
  rw [openSizeAll_eq_sum, openSizeAll_eq_sum, List.map_map]
  exact hsum

omit hf in
/-- The terms are those that have the factor and the other ones. -/
lemma openSizeAll_holders_add_others (f : Expr) (es : List Expr) :
    openSizeAll (holders f es) + openSizeAll (others f es) = openSizeAll es := by
  rw [← openSizeAll_append, openSizeAll_eq_sum, openSizeAll_eq_sum]
  exact ((holders_append_others_perm f es).map openSize).sum_eq

/-- The cofactor is smaller than the sum. -/
lemma openSize_cofactor_lt : (factorizationBy f es).cofactor.openSize < openSizeAll es + 1 := by
  have hquotients := openSizeAll_holders_quotients hf
  have hall := openSizeAll_holders_add_others f es
  have hlength := List.length_pos_iff.2 (holders_ne_nil (mem_of_mem_eraseDups hf))
  refine Nat.lt_succ_of_le ((openSize_gather_le .sum _).trans ?_)
  unfold nodeSize
  split <;> omega

/-- The remainder is smaller than the sum. -/
lemma openSize_remainder_lt : (factorizationBy f es).remainder.openSize < openSizeAll es + 1 := by
  have hquotients := openSizeAll_holders_quotients hf
  have hall := openSizeAll_holders_add_others f es
  have hlength := List.length_pos_iff.2 (holders_ne_nil (mem_of_mem_eraseDups hf))
  refine Nat.lt_succ_of_le ((openSize_gather_le .sum _).trans ?_)
  unfold nodeSize
  split <;> omega

end Parts

/-- Both parts of a factored sum have fewer nodes that are no constants than the sum. -/
lemma openSize_parts_lt {a b : Expr} {rest : List Expr} {F : Factorization}
    (hF : F ∈ factorizationsOf (a :: b :: rest)) :
    F.cofactor.openSize < (sum a b rest).openSize ∧
      F.remainder.openSize < (sum a b rest).openSize := by
  obtain ⟨f, hf, rfl⟩ := mem_factorizationsOf.1 hF
  rw [openSize_nary]
  exact ⟨openSize_cofactor_lt hf, openSize_remainder_lt hf⟩

/-! ### Collecting -/

section Collecting

variable {again again' : Expr → Except Fault Expr} {size : ℕ}

/-- The simplest form of a sum only depends on the treatment of the parts of the factorizations that
are tried. -/
lemma collectSum_congr_of_useful {terms : List Expr} (h : ∀ F ∈ usefulFactorizations terms,
    again F.cofactor = again' F.cofactor ∧ again F.remainder = again' F.remainder)
    (collected : List Expr) :
    collectSum again terms collected = collectSum again' terms collected := by
  have hrecollect : ∀ F ∈ usefulFactorizations terms, recollect again F = recollect again' F := by
    intro F hF
    rw [recollect, recollect, (h F hF).1, (h F hF).2]
  rw [collectSum_eq, collectSum_eq, Outcome.mapM_congr hrecollect]

/-- Recollecting the factorizations of a sum only depends on the treatment of smaller
expressions. -/
lemma collectSum_congr (hagain : ∀ e : Expr, e.openSize < size → again e = again' e)
    {a b : Expr} {rest : List Expr} (hsize : (sum a b rest).openSize ≤ size)
    (collected : List Expr) :
    collectSum again (a :: b :: rest) collected =
      collectSum again' (a :: b :: rest) collected := by
  refine collectSum_congr_of_useful (fun F hF => ?_) collected
  obtain ⟨hcofactor, hremainder⟩ := openSize_parts_lt (List.mem_filter.1 hF).1
  exact ⟨hagain _ (hcofactor.trans_le hsize), hagain _ (hremainder.trans_le hsize)⟩

/-- Collecting only depends on the treatment of smaller expressions. -/
lemma collectWith_congr (hagain : ∀ e : Expr, e.openSize < size → again e = again' e) {e : Expr}
    (he : e.openSize ≤ size) : collectWith again e = collectWith again' e := by
  induction e using Expr.induction with
  | nary op a b rest ih =>
    have hsame : ∀ t ∈ a :: b :: rest, collectWith again t = collectWith again' t := by
      intro t ht
      refine ih t ht ((openSize_le_openSizeAll ht).trans (le_trans ?_ he))
      rw [openSize_nary]
      exact Nat.le_succ _
    simp only [List.forall_mem_cons] at hsame
    have hrest : collectAllWith again rest = collectAllWith again' rest := by
      rw [collectAllWith_eq_mapM, collectAllWith_eq_mapM, Outcome.mapM_congr hsame.2.2]
    cases op with
    | sum =>
      rw [collectWith, collectWith, hsame.1, hsame.2.1, hrest]
      simp only [collectSum_congr hagain he]
    | product => rw [collectWith, collectWith, hsame.1, hsame.2.1, hrest]
  | negation e ih => rw [collectWith, collectWith, ih ((Nat.le_succ _).trans he)]
  | division l r hl hr =>
    rw [openSize] at he
    rw [collectWith, collectWith, hl (by omega), hr (by omega)]
  | parentheses e ih => rw [collectWith, collectWith, ih ((Nat.le_succ _).trans he)]
  | _ => rfl

/-- One more than the size of an expression makes no difference. -/
lemma collectUpTo_succ {e : Expr} (he : e.openSize ≤ size) :
    collectUpTo (size + 1) e = collectUpTo size e := by
  induction size generalizing e with
  | zero => cases e <;> first | rfl | exact absurd he (by simp [openSize])
  | succ size ih => exact collectWith_congr (fun t ht => ih (Nat.le_of_lt_succ ht)) he

/-- Beyond the size of an expression the bound does not matter. -/
lemma collectUpTo_eq_collect {e : Expr} (he : e.openSize ≤ size) :
    collectUpTo size e = e.collect := by
  induction size, he using Nat.le_induction with
  | base => rfl
  | succ size hsize ih => rw [collectUpTo_succ hsize, ih]

/-- Collecting treats the parts of a factored sum in the same way as the sum. -/
theorem collect_eq_collectWith (e : Expr) : e.collect = collectWith collect e := by
  have hagain : ∀ t : Expr, t.openSize < e.openSize + 1 → collectUpTo e.openSize t = t.collect :=
    fun t ht => collectUpTo_eq_collect (Nat.le_of_lt_succ ht)
  rw [← collectUpTo_eq_collect (Nat.le_succ e.openSize), collectUpTo]
  exact collectWith_congr hagain (Nat.le_succ _)

end Collecting

/-! ### Simplifying -/

/-- Whether the simplification of an expression treats a side of a division, in one of the trees
that its steps lead to. -/
def Calls (e s : Expr) : Prop :=
  ∃ t, Reaches simplifyTraced e t ∧ s ∈ t.flatten.treatedSides

/-- What is treated has a lesser division depth. -/
lemma Calls.divisionDepth_lt {e s : Expr} (h : Calls e s) : s.divisionDepth < e.divisionDepth := by
  obtain ⟨t, ht, hs⟩ := h
  exact ht.divisionDepth_lt (fun _ _ => rewrites_of_yields_simplifyTraced) hs

/-- There is no endless chain of simplifications within simplifications. -/
lemma wellFounded_calls : WellFounded fun s e : Expr => Calls e s :=
  Subrelation.wf Calls.divisionDepth_lt (measure divisionDepth).wf

/-- A run that treats these sides by simplification is the simplification of the expression. -/
lemma runWith_eq_simplifyTraced {side : Expr → Traced Expr} {e : Expr}
    (h : ∀ s, Calls e s → side s = s.simplifyTraced) : runWith side e = e.simplifyTraced := by
  rw [simplifyTraced_eq_runWith]
  exact (runWith_congr fun t ht s hs => (h s ⟨t, ht, hs⟩).symm).symm

/-- No pass makes divisions deeper, and the sides of divisions that are treated within a
simplification are less deep, so that the recursion of simplification through divisions ends.  It is
the only one besides that of collecting through the parts of factored sums, which are smaller than
these. -/
theorem divisionDepth_descends (e : Expr) :
    (e.flatten.divisionDepth ≤ e.divisionDepth ∧ e.expand.divisionDepth ≤ e.divisionDepth ∧
      (∀ r, e.collect = .ok r → r.divisionDepth ≤ e.divisionDepth) ∧
      (∀ r, e.foldConstants = .ok r → r.divisionDepth ≤ e.divisionDepth) ∧
      (∀ r, e.simplifyDivisions = .ok r → r.divisionDepth ≤ e.divisionDepth) ∧
      (∀ r, e.step = .ok r → r.divisionDepth ≤ e.divisionDepth) ∧
      ∀ r, e.simplify = .ok r → r.divisionDepth ≤ e.divisionDepth) ∧
    (∀ s, Calls e s → s.divisionDepth < e.divisionDepth) ∧
    Acc (fun s t => Calls t s) e ∧
    (∀ side, (∀ s, Calls e s → side s = s.simplifyTraced) → runWith side e = e.simplifyTraced) ∧
    (∀ F ∈ e.factorizations, F.cofactor.openSize < e.openSize ∧
      F.remainder.openSize < e.openSize) ∧
    e.collect = collectWith collect e := by
  have hside : ∀ (e r : Expr), e.simplifyTraced.Yields (fun _ => True) r → Rewrites e r :=
    fun _ _ => rewrites_of_yields_simplifyTraced
  refine ⟨⟨(rewrites_flatten e).divisionDepth_le, (rewrites_expand e).divisionDepth_le,
    fun r hr => (rewrites_of_collect hr).divisionDepth_le,
    fun r hr => (rewrites_of_foldConstants hr).divisionDepth_le, fun r hr => ?_, fun r hr => ?_,
    fun r hr => (hside e r (Traced.yields_true_iff.2 hr)).divisionDepth_le⟩,
    fun _ => Calls.divisionDepth_lt, wellFounded_calls.apply e,
    fun _ => runWith_eq_simplifyTraced, fun F hF => ?_, collect_eq_collectWith e⟩
  · have hdivisions := Traced.yields_true_iff.2 hr
    exact (rewrites_of_yields_resolveDivisions hside hdivisions).divisionDepth_le
  · exact (rewrites_of_yields_stepWith hside (Traced.yields_true_iff.2 hr)).divisionDepth_le
  · cases e with
    | nary op a b rest =>
      cases op with
      | sum => exact openSize_parts_lt hF
      | product => exact absurd hF List.not_mem_nil
    | _ => exact absurd hF List.not_mem_nil

/-- For instance a quotient within a quotient is treated, and is less deep. -/
theorem divisionDepth_descends_quotient :
    Calls (division (var "x") (division (var "y") (integer 2))) (division (var "y") (integer 2)) ∧
      (division (var "y") (integer 2)).divisionDepth <
        (division (var "x") (division (var "y") (integer 2))).divisionDepth := by
  have hcalls : Calls (division (var "x") (division (var "y") (integer 2)))
      (division (var "y") (integer 2)) :=
    ⟨_, .refl, List.mem_cons_of_mem _ List.mem_cons_self⟩
  exact ⟨hcalls, (divisionDepth_descends _).2.1 _ hcalls⟩

end Expr

end TermAlgebra
