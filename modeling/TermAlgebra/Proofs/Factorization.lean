import Mathlib.Tactic
import TermAlgebra.Proofs.Strike

/-!
# Factorizations of a sum

The factorizations of a sum of terms without decimals.

Each of them takes some factor of a term, together with all factors that occur in exactly the same
terms (`companions`), out of these terms (`factorizationBy`, `mem_factorizationsOf`).  The terms
that have the factor (`holders`) become the cofactor, and the other ones (`others`) the remainder.
The powers that are taken out are used up by every term that has the factor
(`companionPowers_subperm`), so a factorization has the value of the sum (`value_factorizationBy`)
and the hereditary properties of its terms.
-/

namespace TermAlgebra

namespace Expr

/-! ### Lists without repetitions -/

/-- What is left when repetitions are removed has been in the list. -/
lemma mem_of_mem_eraseDups {α : Type} [BEq α] {es : List α} {f : α} (h : f ∈ es.eraseDups) :
    f ∈ es := by
  induction hn : es.length using Nat.strong_induction_on generalizing es with
  | _ n ih =>
    cases es with
    | nil => simp at h
    | cons e es =>
      rw [List.eraseDups_cons, List.mem_cons] at h
      rcases h with rfl | h
      · exact List.mem_cons_self
      · have hlt : (es.filter fun b => !b == e).length < n := by
          rw [← hn, List.length_cons]
          exact Nat.lt_succ_of_le (List.length_filter_le _ es)
        exact List.mem_cons_of_mem e (List.mem_filter.1 (ih _ hlt h rfl)).1

/-- Without decimals every item is left when repetitions are removed. -/
lemma mem_eraseDups_of_mem {es : List Expr} (hes : ∀ e ∈ es, e.isDecimalFree = true) {f : Expr}
    (h : f ∈ es) : f ∈ es.eraseDups := by
  induction hn : es.length using Nat.strong_induction_on generalizing es with
  | _ n ih =>
    cases es with
    | nil => simp at h
    | cons e es =>
      rw [List.eraseDups_cons, List.mem_cons]
      by_cases hfe : f = e
      · exact Or.inl hfe
      · right
        have hf := (List.mem_cons.1 h).resolve_left hfe
        have hlt : (es.filter fun b => !b == e).length < n := by
          rw [← hn, List.length_cons]
          exact Nat.lt_succ_of_le (List.length_filter_le _ es)
        refine ih _ hlt (fun t ht => hes t (List.mem_cons_of_mem e (List.mem_filter.1 ht).1)) ?_ rfl
        refine List.mem_filter.2 ⟨hf, ?_⟩
        rw [Bool.not_eq_true', Bool.eq_false_iff]
        exact fun hbeq => hfe ((beq_iff_eq_of_isDecimalFree (hes f h)).1 hbeq)

/-- Nothing is repeated when repetitions are removed. -/
lemma nodup_eraseDups {α : Type} [BEq α] [ReflBEq α] (es : List α) : es.eraseDups.Nodup := by
  induction hn : es.length using Nat.strong_induction_on generalizing es with
  | _ n ih =>
    cases es with
    | nil => simp
    | cons e es =>
      rw [List.eraseDups_cons, List.nodup_cons]
      have hlt : (es.filter fun b => !b == e).length < n := by
        rw [← hn, List.length_cons]
        exact Nat.lt_succ_of_le (List.length_filter_le _ es)
      refine ⟨fun hmem => ?_, ih _ hlt _ rfl⟩
      have hself := (List.mem_filter.1 (mem_of_mem_eraseDups hmem)).2
      rw [beq_self_eq_true] at hself
      exact Bool.noConfusion hself

/-- An expression without decimals is found in a list exactly if it stands there. -/
lemma contains_iff_mem {es : List Expr} {f : Expr} (hf : f.isDecimalFree = true) :
    es.contains f = true ↔ f ∈ es := by
  rw [List.contains_iff_exists_mem_beq]
  constructor
  · rintro ⟨g, hg, hfg⟩
    rwa [(beq_iff_eq_of_isDecimalFree hf).1 hfg]
  · intro h
    exact ⟨f, h, beq_self_eq_true f⟩

/-- Without decimals as many copies of an expression as are counted stand in a list. -/
lemma replicate_count_subperm {es : List Expr} (hes : ∀ e ∈ es, e.isDecimalFree = true)
    (f : Expr) : (List.replicate (es.count f) f).Subperm es := by
  have hfilter : es.filter (· == f) = List.replicate (es.count f) f := by
    rw [List.count, List.countP_eq_length_filter]
    refine List.eq_replicate_of_mem fun t ht => ?_
    obtain ⟨ht, htf⟩ := List.mem_filter.1 ht
    exact (beq_iff_eq_of_isDecimalFree (hes t ht)).1 htf
  rw [← hfilter]
  exact List.filter_sublist.subperm

/-- What is found in a list is counted. -/
lemma count_pos_of_contains {es : List Expr} {f : Expr} (h : es.contains f = true) :
    0 < es.count f := by
  obtain ⟨g, hg, hfg⟩ := List.contains_iff_exists_mem_beq.1 h
  rw [List.count, List.countP_pos_iff]
  exact ⟨g, hg, (agrees_symm g f).trans hfg⟩

end Expr

/-! ### Powers of several factors -/

namespace Powers

open Classical in
/-- Powers of different bases have as many factors of one base as its exponent says. -/
lemma count_elements {shared : List Expr} (hnodup : shared.Nodup) (k : Expr → ℕ) (f : Expr) :
    Multiset.count f (elements (shared.map fun g => (g, k g)) : Multiset Expr) =
      if f ∈ shared then k f else 0 := by
  induction shared with
  | nil => simp [elements]
  | cons g shared ih =>
    obtain ⟨hg, hnodup⟩ := List.nodup_cons.1 hnodup
    rw [List.map_cons, elements_cons, ← Multiset.coe_add, Multiset.count_add, ih hnodup,
      Multiset.coe_replicate, Multiset.count_replicate]
    by_cases hfg : g = f
    · simp [← hfg, hg]
    · simp [hfg, Ne.symm hfg]

/-- Powers of different bases are among some factors if each single power is. -/
lemma elements_subperm {shared : List Expr} (hnodup : shared.Nodup) {k : Expr → ℕ}
    {es : List Expr} (h : ∀ f ∈ shared, (List.replicate (k f) f).Subperm es) :
    (elements (shared.map fun g => (g, k g))).Subperm es := by
  classical
  rw [← Multiset.coe_le, Multiset.le_iff_count]
  intro f
  rw [count_elements hnodup]
  split
  · next hf =>
    rw [Multiset.le_count_iff_replicate_le, ← Multiset.coe_replicate, Multiset.coe_le]
    exact h f hf
  · exact Nat.zero_le _

/-- A base with a positive exponent is among the factors. -/
lemma mem_elements_of_pos {shared : List Expr} {k : Expr → ℕ} {f : Expr} (hf : f ∈ shared)
    (hk : 0 < k f) : f ∈ elements (shared.map fun g => (g, k g)) := by
  unfold elements
  rw [List.mem_flatMap]
  exact ⟨(f, k f), List.mem_map_of_mem hf, List.mem_replicate.2 ⟨hk.ne', rfl⟩⟩

end Powers

namespace Expr

/-! ### Terms with a factor -/

/-- The terms that have a factor. -/
def holders (f : Expr) (es : List Expr) : List Expr :=
  es.filter fun t => t.factors.contains f

/-- The terms that do not have a factor. -/
def others (f : Expr) (es : List Expr) : List Expr :=
  es.filter fun t => !t.factors.contains f

/-- The factors that occur in exactly the same terms as a given one. -/
def companions (f : Expr) (es : List Expr) : List Expr :=
  (factorsAll es).eraseDups.filter fun g => sharing g es == sharing f es

/-- The powers in which these factors are common to the terms that have them. -/
def companionPowers (f : Expr) (es : List Expr) : Powers :=
  (companions f es).map fun g => (g, commonExponent (holders f es) g)

/-- The factorization by a factor and its companions. -/
def factorizationBy (f : Expr) (es : List Expr) : Factorization where
  factor := gather .product (companionPowers f es).elements
  cofactor := gather .sum ((holders f es).map fun t => t.divideOut (companionPowers f es))
  remainder := gather .sum (others f es)

/-- Marking terms selects them. -/
lemma marked_map (es : List Expr) (p : Expr → Bool) : marked es (es.map p) = es.filter p := by
  induction es with
  | nil => rfl
  | cons e es ih =>
    rw [marked] at ih ⊢
    rw [List.map_cons, List.zip_cons_cons, List.filter_cons, List.filter_cons]
    split
    · rw [List.map_cons, ih]
    · exact ih

/-- A factor and its companions occur in the same terms. -/
lemma contains_of_mem_companions {f g t : Expr} {es : List Expr} (hg : g ∈ companions f es)
    (ht : t ∈ es) : t.factors.contains g = t.factors.contains f := by
  have hsharing := (List.mem_filter.1 hg).2
  rw [beq_iff_eq, sharing, sharing] at hsharing
  exact List.map_inj_left.1 hsharing t ht

/-- The factors that occur in the terms that a given one marks are taken out of these. -/
lemma factorOut_sharing (f : Expr) (es : List Expr) :
    factorOut es (sharing f es) ((((factorsAll es).eraseDups.map fun g => (g, sharing g es)).filter
      (·.2 == sharing f es)).map (·.1)) = factorizationBy f es := by
  simp only [factorOut, List.filter_map, List.map_map, sharing, marked_map, Function.comp_def]
  rfl

/-- The factorizations of a sum are those by a factor of a term and its companions. -/
lemma mem_factorizationsOf {es : List Expr} {F : Factorization} :
    F ∈ factorizationsOf es ↔
      ∃ f ∈ (factorsAll es).eraseDups, F = factorizationBy f es := by
  unfold factorizationsOf
  simp only [List.map_map, List.mem_map, List.mem_eraseDups, Function.comp_apply]
  constructor
  · rintro ⟨_, ⟨f, hf, rfl⟩, rfl⟩
    exact ⟨f, hf, factorOut_sharing f es⟩
  · rintro ⟨f, hf, rfl⟩
    exact ⟨_, ⟨f, hf, rfl⟩, factorOut_sharing f es⟩

/-! ### What is taken out -/

section TakenOut

variable {es : List Expr} {f : Expr}

/-- A factor that is taken out stands in a term. -/
lemma mem_factorsAll_of_mem_companions {g : Expr} (hg : g ∈ companions f es) :
    g ∈ factorsAll es :=
  mem_of_mem_eraseDups (List.mem_filter.1 hg).1

/-- The bases of what is taken out are the factor and its companions. -/
lemma bases_companionPowers (f : Expr) (es : List Expr) :
    (companionPowers f es).map Prod.fst = companions f es := by
  unfold companionPowers
  rw [List.map_map]
  exact List.map_id _

/-- The terms of a sum are those that have a factor and those that do not. -/
lemma holders_append_others_perm (f : Expr) (es : List Expr) :
    (holders f es ++ others f es).Perm es :=
  List.filter_append_perm _ es

/-- A factor is its own companion. -/
lemma mem_companions_self (hf : f ∈ (factorsAll es).eraseDups) : f ∈ companions f es :=
  List.mem_filter.2 ⟨hf, beq_self_eq_true _⟩

/-- A factor of a term has a term that has it. -/
lemma holders_ne_nil (hf : f ∈ factorsAll es) : holders f es ≠ [] := by
  obtain ⟨t, ht, hft⟩ := mem_factorsAll.1 hf
  refine List.ne_nil_of_mem (List.mem_filter.2 ⟨ht, ?_⟩)
  exact List.contains_iff_exists_mem_beq.2 ⟨f, hft, beq_self_eq_true f⟩

/-- A factor and its companions occur in all terms that have the factor. -/
lemma commonExponent_pos (hf : f ∈ factorsAll es) {g : Expr} (hg : g ∈ companions f es) :
    0 < commonExponent (holders f es) g := by
  have hne : (holders f es).map (fun t => t.factors.count g) ≠ [] := by
    simpa using holders_ne_nil hf
  obtain ⟨n, hn⟩ := Option.ne_none_iff_exists'.1 (mt List.min?_eq_none_iff.1 hne)
  obtain ⟨t, ht, rfl⟩ := List.mem_map.1 (List.min?_mem hn)
  unfold commonExponent
  rw [hn, Option.getD_some]
  obtain ⟨ht, hft⟩ := List.mem_filter.1 ht
  exact count_pos_of_contains ((contains_of_mem_companions hg ht).trans hft)

/-- A factor and its companions are taken out at least once. -/
lemma mem_elements_companionPowers (hf : f ∈ factorsAll es) {g : Expr}
    (hg : g ∈ companions f es) : g ∈ (companionPowers f es).elements :=
  Powers.mem_elements_of_pos (k := commonExponent (holders f es)) hg (commonExponent_pos hf hg)

/-- Something is taken out. -/
lemma elements_companionPowers_ne_nil (hf : f ∈ (factorsAll es).eraseDups) :
    (companionPowers f es).elements ≠ [] :=
  List.ne_nil_of_mem
    (mem_elements_companionPowers (mem_of_mem_eraseDups hf) (mem_companions_self hf))

namespace Hereditary

variable {Q : Expr → Prop} (hQ : Hereditary Q) (h : ∀ e ∈ es, Q e)

include hQ h

/-- What is taken out has every hereditary property of the terms. -/
lemma companionPowers (f : Expr) : ∀ g ∈ (companionPowers f es).elements, Q g := by
  intro g hg
  have hbase := Powers.mem_bases_of_mem_elements hg
  rw [bases_companionPowers] at hbase
  obtain ⟨t, ht, hgt⟩ := mem_factorsAll.1 (mem_factorsAll_of_mem_companions hbase)
  exact hQ.factors (h t ht) _ hgt

/-- The factor that is taken out has every hereditary property of the terms. -/
lemma factor (hf : f ∈ (factorsAll es).eraseDups) : Q (factorizationBy f es).factor :=
  hQ.gather .product (elements_companionPowers_ne_nil hf) (hQ.companionPowers h f)

/-- The cofactor has every hereditary property of the terms. -/
lemma cofactor (hf : f ∈ (factorsAll es).eraseDups) : Q (factorizationBy f es).cofactor := by
  refine hQ.gather .sum (by simpa using holders_ne_nil (mem_of_mem_eraseDups hf)) ?_
  intro q hq
  obtain ⟨t, ht, rfl⟩ := List.mem_map.1 hq
  exact hQ.divideOut (h t (List.mem_filter.1 ht).1) _

/-- The remainder has every hereditary property of the terms, unless it is empty. -/
lemma remainder (f : Expr) :
    (factorizationBy f es).remainder.isEmpty = true ∨ Q (factorizationBy f es).remainder := by
  by_cases hne : others f es = []
  · left
    rw [factorizationBy, hne]
    rfl
  · right
    exact hQ.gather .sum hne fun t ht => h t (List.mem_filter.1 ht).1

end Hereditary

end TakenOut

/-! ### Sums without decimals -/

section DecimalFree

variable {es : List Expr} (hes : ∀ e ∈ es, e.isDecimalFree = true) {f : Expr}

include hes

/-- The factors of terms without decimals have no decimals. -/
lemma isDecimalFree_of_mem_factorsAll {g : Expr} (hg : g ∈ factorsAll es) :
    g.isDecimalFree = true := by
  obtain ⟨t, ht, hg⟩ := mem_factorsAll.1 hg
  exact hereditary_isDecimalFree.factors (hes t ht) g hg

/-- Every factor of a term belongs to a factorization. -/
lemma mem_eraseDups_factorsAll (hf : f ∈ factorsAll es) : f ∈ (factorsAll es).eraseDups :=
  mem_eraseDups_of_mem (fun _ hg => isDecimalFree_of_mem_factorsAll hes hg) hf

/-- The terms that have a factor. -/
lemma mem_holders {t : Expr} (hf : f ∈ factorsAll es) :
    t ∈ holders f es ↔ t ∈ es ∧ f ∈ t.factors := by
  unfold holders
  rw [List.mem_filter, contains_iff_mem (isDecimalFree_of_mem_factorsAll hes hf)]

/-- The terms that do not have a factor. -/
lemma mem_others {t : Expr} (hf : f ∈ factorsAll es) :
    t ∈ others f es ↔ t ∈ es ∧ f ∉ t.factors := by
  unfold others
  rw [List.mem_filter, Bool.not_eq_true', Bool.eq_false_iff, Ne,
    contains_iff_mem (isDecimalFree_of_mem_factorsAll hes hf)]

/-- The powers that are taken out are well formed. -/
lemma wellFormed_companionPowers (f : Expr) : (companionPowers f es).WellFormed := by
  refine ⟨?_, ?_, ?_⟩ <;> rw [bases_companionPowers]
  · exact (nodup_eraseDups _).filter _
  · exact fun g hg =>
      isDecimalFree_of_mem_factorsAll hes (mem_factorsAll_of_mem_companions hg)
  · intro g hg
    obtain ⟨t, -, hgt⟩ := mem_factorsAll.1 (mem_factorsAll_of_mem_companions hg)
    exact factors_of_mem_factors hgt

/-- A term that has a factor has all the factors that are taken out with it. -/
lemma companionPowers_subperm (f : Expr) {t : Expr} (ht : t ∈ holders f es) :
    (companionPowers f es).elements.Subperm t.factors := by
  refine Powers.elements_subperm ((nodup_eraseDups _).filter _) ?_
  intro g _
  have hle : commonExponent (holders f es) g ≤ t.factors.count g :=
    List.min?_getD_le_of_mem (List.mem_map_of_mem ht)
  have hfree : ∀ u ∈ t.factors, u.isDecimalFree = true :=
    hereditary_isDecimalFree.factors (hes t (List.mem_filter.1 ht).1)
  refine List.Subperm.trans ?_ (replicate_count_subperm hfree g)
  exact ((List.replicate_sublist_replicate g).2 hle).subperm

/-- Exactly the factors that are taken out are gone from a term that has them. -/
lemma exists_strikes_holder (f : Expr) {t : Expr} (ht : t ∈ holders f es) :
    ∃ gone, Strikes [t] (companionPowers f es) (t.strike (companionPowers f es)) gone ∧
      (companionPowers f es).elements.Perm gone := by
  obtain ⟨gone, h⟩ := exists_strikes t (wellFormed_companionPowers hes f)
  refine ⟨gone, h, h.perm_gone ?_⟩
  rw [factorsAll_singleton]
  exact companionPowers_subperm hes f ht

end DecimalFree

namespace Interprets

variable {R : Type} [CommSemiring R] {sign : R} {g : Expr → R} (hg : Interprets sign g)
  {es : List Expr} (hes : ∀ e ∈ es, e.isExact = true)

include hg hes

/-- The remainder has the quantity of the terms that do not have the factor. -/
lemma remainder (f : Expr) :
    g (factorizationBy f es).remainder = ((others f es).map g).sum := by
  by_cases hne : others f es = []
  · rw [factorizationBy, hne]
    exact hg.empty
  · exact hg.gather .sum hne fun t ht => hes t (List.mem_filter.1 ht).1

/-- The factor has the quantity of the product of what is taken out. -/
lemma factor {f : Expr} (hf : f ∈ (factorsAll es).eraseDups) :
    g (factorizationBy f es).factor = ((companionPowers f es).elements.map g).prod :=
  hg.gather .product (elements_companionPowers_ne_nil hf)
    (hereditary_isExact.companionPowers hes f)

/-- A factorization has the quantity of the sum. -/
lemma factorizationBy {f : Expr} (hf : f ∈ (factorsAll es).eraseDups) :
    g (Expr.factorizationBy f es).factor * g (Expr.factorizationBy f es).cofactor +
      g (Expr.factorizationBy f es).remainder = (es.map g).sum := by
  have hfree : ∀ e ∈ es, e.isDecimalFree = true := fun e he => isDecimalFree_of_isExact (hes e he)
  have hfactor := hg.factor hes hf
  have hcofactor : g (Expr.factorizationBy f es).cofactor =
      ((holders f es).map fun t => g (t.divideOut (companionPowers f es))).sum := by
    refine (hg.gather .sum (by simpa using holders_ne_nil (mem_of_mem_eraseDups hf)) ?_).trans ?_
    · intro q hq
      obtain ⟨t, ht, rfl⟩ := List.mem_map.1 hq
      exact hereditary_isExact.divideOut (hes t (List.mem_filter.1 ht).1) _
    · rw [List.map_map, AssocOp.total_sum]
      rfl
  have hremainder := hg.remainder hes f
  have hholder : ∀ t ∈ holders f es, g t =
      ((companionPowers f es).elements.map g).prod * g (t.divideOut (companionPowers f es)) := by
    intro t ht
    obtain ⟨gone, h, hperm⟩ := exists_strikes_holder hfree f ht
    rw [hg.divideOut h (hes t (List.mem_filter.1 ht).1), (hperm.map g).prod_eq, mul_comm]
  calc g (Expr.factorizationBy f es).factor * g (Expr.factorizationBy f es).cofactor +
        g (Expr.factorizationBy f es).remainder
      = ((holders f es).map g).sum + ((others f es).map g).sum := by
        rw [hfactor, hcofactor, hremainder, ← List.sum_map_mul_left,
          List.map_congr_left hholder]
    _ = (es.map g).sum := by
        rw [← List.sum_append, ← List.map_append]
        exact ((holders_append_others_perm f es).map g).sum_eq

end Interprets

/-- The remainder has the value of the terms that do not have the factor. -/
lemma value_remainder {ρ : String → ℚ} {es : List Expr} (hes : ∀ e ∈ es, e.Defined ρ) (f : Expr) :
    (factorizationBy f es).remainder.value ρ = ((others f es).map (value ρ)).sum :=
  (interprets_value ρ).remainder (fun e he => isExact_of_defined (hes e he)) f

/-- The factor has the value of the product of what is taken out. -/
lemma value_factor {ρ : String → ℚ} {es : List Expr} (hes : ∀ e ∈ es, e.Defined ρ) {f : Expr}
    (hf : f ∈ (factorsAll es).eraseDups) :
    (factorizationBy f es).factor.value ρ =
      ((companionPowers f es).elements.map (value ρ)).prod :=
  (interprets_value ρ).factor (fun e he => isExact_of_defined (hes e he)) hf

/-- A factorization has the value of the sum. -/
lemma value_factorizationBy {ρ : String → ℚ} {es : List Expr} (hes : ∀ e ∈ es, e.Defined ρ)
    {f : Expr} (hf : f ∈ (factorsAll es).eraseDups) :
    (factorizationBy f es).factor.value ρ * (factorizationBy f es).cofactor.value ρ +
      (factorizationBy f es).remainder.value ρ = (es.map (value ρ)).sum :=
  (interprets_value ρ).factorizationBy (fun e he => isExact_of_defined (hes e he)) hf

end Expr

end TermAlgebra
