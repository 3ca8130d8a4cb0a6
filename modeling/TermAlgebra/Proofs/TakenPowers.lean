import Mathlib.Tactic
import TermAlgebra.Proofs.Grouping

/-!
# Powers taken out of a term

What a term becomes when it is divided by arbitrary powers.

Only powers of exact expressions that are taken as a whole can be met in an exact term, so that the
other ones may be left out (`Powers.findable`, `divideOut_findable`).  If no constant is among them,
these powers are well formed (`Powers.wellFormed_findable`), and striking them leaves no factor
whose power is not used up.  So each factor goes as often as it stands in the term and in the
powers, whichever is less often (`Strikes.count_gone`), and the quotient keeps the other factors.
The value of the term is that of the quotient times the powers that are gone (`divideOut_takes`).
-/

namespace TermAlgebra

namespace Expr

/-- A factor of an exact term is exact and taken as a whole. -/
lemma isExact_and_isWhole_of_mem_factors {t f : Expr} (ht : t.isExact = true)
    (h : f ∈ t.factors) : (f.isExact && f.isWhole) = true := by
  rw [Bool.and_eq_true]
  exact ⟨hereditary_isExact.factors ht f h, (isWhole_of_mem_factors h).1⟩

/-- What cannot be met in an exact term does not agree with what can be met. -/
lemma not_beq_of_isExact_and_isWhole {b f : Expr} (hf : (f.isExact && f.isWhole) = true)
    (hb : ¬ (b.isExact && b.isWhole) = true) : ¬ (b == f) = true := by
  intro hbf
  have hfree := isDecimalFree_of_isExact (Bool.and_eq_true _ _ ▸ hf).1
  exact hb ((beq_iff_eq_of_isDecimalFree_right hfree).1 hbf ▸ hf)

/-- No factor of an exact term agrees with an expression that cannot be met in it. -/
lemma count_factors_eq_zero {t b : Expr} (ht : t.isExact = true)
    (hb : ¬ (b.isExact && b.isWhole) = true) : t.factors.count b = 0 := by
  refine List.countP_eq_zero.2 fun f hf hfb => ?_
  exact not_beq_of_isExact_and_isWhole (isExact_and_isWhole_of_mem_factors ht hf) hb
    ((agrees_symm b f).trans hfb)

end Expr

namespace Powers

/-! ### Powers that can be met -/

/-- The powers that can be met in an exact term: those of exact expressions that are taken as a
whole. -/
def findable (powers : Powers) : Powers :=
  powers.filter fun power => power.1.isExact && power.1.isWhole

/-- The first power is kept if it can be met. -/
lemma findable_cons (b : Expr) (n : ℕ) (powers : Powers) :
    findable ((b, n) :: powers) =
      if b.isExact && b.isWhole then (b, n) :: findable powers else findable powers :=
  List.filter_cons

/-- What can be met in an exact term is taken from the powers that can be met. -/
lemma take?_findable {f : Expr} (hf : (f.isExact && f.isWhole) = true) (powers : Powers) :
    take? f powers.findable = (take? f powers).map findable := by
  induction powers with
  | nil => rfl
  | cons power powers ih =>
    obtain ⟨b, n⟩ := power
    by_cases hb : (b.isExact && b.isWhole) = true
    · have hcons : ∀ m fewer, findable ((b, m) :: fewer) = (b, m) :: findable fewer :=
        fun m fewer => (findable_cons b m fewer).trans (if_pos hb)
      rw [hcons, take?_cons, take?_cons, ih]
      split
      · cases n with
        | zero => rfl
        | succ n => rw [Option.map_some, hcons]
      · simp only [Option.map_map, Function.comp_def, hcons]
    · have hcons : ∀ fewer, findable ((b, n) :: fewer) = findable fewer :=
        fun fewer => (findable_cons b n fewer).trans (if_neg hb)
      have hbf : ¬ (b == f) = true := Expr.not_beq_of_isExact_and_isWhole hf hb
      rw [hcons, take?_cons, if_neg hbf, ih]
      simp only [Option.map_map, Function.comp_def, hcons]

/-- Powers that can be met are well formed if no base is listed twice or constant. -/
lemma wellFormed_findable {powers : Powers} (hnodup : (powers.map Prod.fst).Nodup)
    (hconstant : ∀ b ∈ powers.map Prod.fst, b.isConstant = false) :
    powers.findable.WellFormed := by
  have hsub : (powers.findable.map Prod.fst).Sublist (powers.map Prod.fst) :=
    List.filter_sublist.map Prod.fst
  have hbase : ∀ b ∈ powers.findable.map Prod.fst, b.isExact = true ∧ b.isWhole = true := by
    intro b hb
    obtain ⟨power, hpower, rfl⟩ := List.mem_map.1 hb
    exact Bool.and_eq_true _ _ ▸ (List.mem_filter.1 hpower).2
  refine ⟨hnodup.sublist hsub, fun b hb => ?_, fun b hb => ?_⟩
  · exact Expr.isDecimalFree_of_isExact (hbase b hb).1
  · rw [Expr.factors_of_isWhole (hbase b hb).2, hconstant b (hsub.subset hb),
      Expr.isEmpty_of_isExact (hbase b hb).1]
    rfl

/-- A power adds its exponent for what agrees with its base. -/
lemma count_elements_cons (b f : Expr) (n : ℕ) (powers : Powers) :
    (elements ((b, n) :: powers)).count f =
      (if b == f then n else 0) + powers.elements.count f := by
  rw [elements_cons, List.count_append]
  exact congrArg (· + _) List.countP_replicate

/-- What can be met in an exact term stands among the powers as often as among those that can be
met. -/
lemma count_elements_findable {f : Expr} (hf : (f.isExact && f.isWhole) = true)
    (powers : Powers) : powers.findable.elements.count f = powers.elements.count f := by
  induction powers with
  | nil => rfl
  | cons power powers ih =>
    obtain ⟨b, n⟩ := power
    rw [findable_cons, count_elements_cons, ← ih]
    split
    · rw [count_elements_cons]
    · next hb =>
      have hbf : ¬ (b == f) = true := Expr.not_beq_of_isExact_and_isWhole hf hb
      rw [if_neg hbf, Nat.zero_add]

/-- What agrees with no base is not among the factors of powers. -/
lemma count_elements_eq_zero {f : Expr} {powers : Powers}
    (h : ∀ b ∈ powers.map Prod.fst, ¬ (b == f) = true) : powers.elements.count f = 0 :=
  List.countP_eq_zero.2 fun g hg => h g (mem_bases_of_mem_elements hg)

/-- In well-formed powers a base stands as often as its exponent says. -/
lemma WellFormed.count_base {powers : Powers} (hw : powers.WellFormed) {power : Expr × ℕ}
    (h : power ∈ powers) : powers.elements.count power.1 = power.2 := by
  induction powers with
  | nil => exact absurd h List.not_mem_nil
  | cons first powers ih =>
    obtain ⟨b, n⟩ := first
    obtain ⟨hb, -⟩ := List.nodup_cons.1 hw.nodup
    have hfree := hw.isDecimalFree b List.mem_cons_self
    rw [count_elements_cons]
    rcases List.mem_cons.1 h with rfl | hmem
    · have hrest : ∀ c ∈ powers.map Prod.fst, ¬ (c == b) = true :=
        fun c hc hcb => hb ((Expr.beq_iff_eq_of_isDecimalFree_right hfree).1 hcb ▸ hc)
      rw [if_pos (beq_self_eq_true b), count_elements_eq_zero hrest, Nat.add_zero]
    · have hbase : power.1 ∈ powers.map Prod.fst := List.mem_map_of_mem hmem
      have hne : ¬ (b == power.1) = true :=
        fun hbeq => hb ((Expr.beq_iff_eq_of_isDecimalFree hfree).1 hbeq ▸ hbase)
      rw [if_neg hne, Nat.zero_add, ih hw.tail hmem]

/-- The value of all the factors is the product of the powers. -/
lemma prod_elements (v : Expr → ℚ) (powers : Powers) :
    (powers.elements.map v).prod = (powers.map fun power => v power.1 ^ power.2).prod := by
  induction powers with
  | nil => rfl
  | cons power powers ih =>
    rw [elements_cons, List.map_append, List.prod_append, ih, List.map_replicate,
      List.prod_replicate, List.map_cons, List.prod_cons]

/-- The powers with no exponent above the number of times that a term has the base as a factor. -/
def limited (powers : Powers) (t : Expr) : Powers :=
  powers.map fun power => (power.1, min power.2 (t.factors.count power.1))

/-- The limited powers have the same bases. -/
lemma bases_limited (powers : Powers) (t : Expr) :
    (powers.limited t).map Prod.fst = powers.map Prod.fst := by
  rw [limited, List.map_map]
  rfl

/-- Well-formed limited powers have a factor as often as the powers and the term both have it. -/
lemma WellFormed.count_limited {powers : Powers} (hw : powers.WellFormed) (t f : Expr) :
    (powers.limited t).elements.count f =
      min (powers.elements.count f) (t.factors.count f) := by
  by_cases hbase : ∃ power ∈ powers, (power.1 == f) = true
  · obtain ⟨power, hpower, hf⟩ := hbase
    have hfree := hw.isDecimalFree _ (List.mem_map_of_mem hpower)
    rw [← (Expr.beq_iff_eq_of_isDecimalFree hfree).1 hf, hw.count_base hpower]
    exact (hw.congr (bases_limited powers t)).count_base (List.mem_map_of_mem hpower)
  · have hnone : ∀ b ∈ powers.map Prod.fst, ¬ (b == f) = true := by
      intro b hb hbf
      obtain ⟨power, hpower, rfl⟩ := List.mem_map.1 hb
      exact hbase ⟨power, hpower, hbf⟩
    rw [count_elements_eq_zero hnone, Nat.zero_min,
      count_elements_eq_zero (bases_limited powers t ▸ hnone)]

end Powers

namespace Expr

/-! ### Striking powers that can be met -/

/-- What remains, with the powers that can be met. -/
def Remains.findable (remains : Remains) : Remains :=
  { remains with powers := remains.powers.findable }

/-- What is struck out of several terms does not depend on powers that cannot be met, if this is so
for each of them. -/
lemma strikeAll_findable {es : List Expr}
    (h : ∀ e ∈ es, ∀ powers : Powers, e.strike powers.findable = (e.strike powers).findable)
    (powers : Powers) : strikeAll es powers.findable = (strikeAll es powers).findable := by
  induction es generalizing powers with
  | nil => rfl
  | cons e es ih =>
    rw [List.forall_mem_cons] at h
    have hrest := ih h.2 (e.strike powers).powers
    rw [strikeAll, h.1, strikeAll]
    simp only [Remains.findable] at hrest ⊢
    rw [hrest]
    rfl

/-- What is struck out of an exact term does not depend on powers that cannot be met in it. -/
lemma strike_findable {e : Expr} (he : e.isExact = true) (powers : Powers) :
    e.strike powers.findable = (e.strike powers).findable := by
  induction e using inductionOnFactors generalizing powers with
  | negation e ih =>
    rw [strike, ih ((hereditary_isExact.negation e).1 he)]
    rfl
  | product a b rest ih =>
    have hall := (hereditary_isExact.nary .product a b rest).1 he
    exact strikeAll_findable (fun t ht => ih t ht (hall t ht)) powers
  | whole e hwhole =>
    rw [strike_of_isWhole hwhole, strike_of_isWhole hwhole,
      Powers.take?_findable (by rw [he, hwhole]; rfl)]
    cases powers.take? e with
    | none => rfl
    | some fewer => rfl

/-- A quotient of an exact term does not depend on powers that cannot be met in it. -/
lemma divideOut_findable {t : Expr} (ht : t.isExact = true) (powers : Powers) :
    t.divideOut powers.findable = t.divideOut powers := by
  rw [divideOut_eq, divideOut_eq, strike_findable ht]
  rfl

/-- Nor does the value of the limited powers. -/
lemma prod_limited_findable {t : Expr} (ht : t.isExact = true) (v : Expr → ℚ) (powers : Powers) :
    ((powers.findable.limited t).map fun power => v power.1 ^ power.2).prod =
      (powers.map fun power => v power.1 ^ min power.2 (t.factors.count power.1)).prod := by
  induction powers with
  | nil => rfl
  | cons power powers ih =>
    obtain ⟨b, n⟩ := power
    rw [Powers.findable_cons, List.map_cons, List.prod_cons, ← ih]
    split
    · rfl
    · next hb => rw [count_factors_eq_zero ht hb, Nat.min_zero, pow_zero, one_mul]

/-! ### Factors that are gone -/

/-- Expressions without decimals that are counted alike are the same ones in some order. -/
lemma perm_of_count {es fs : List Expr} (hes : ∀ e ∈ es, e.isDecimalFree = true)
    (hfs : ∀ f ∈ fs, f.isDecimalFree = true) (h : ∀ f, es.count f = fs.count f) :
    es.Perm fs := by
  classical
  rw [← Multiset.coe_eq_coe, Multiset.ext]
  intro f
  by_cases hf : f.isDecimalFree = true
  · rw [← count_eq_multiset_count hf, ← count_eq_multiset_count hf, h f]
  · rw [Multiset.count_eq_zero_of_notMem (mt (hes f) hf),
      Multiset.count_eq_zero_of_notMem (mt (hfs f) hf)]

namespace Strikes

variable {t : Expr} {powers : Powers} {remains : Remains} {gone : List Expr}
  (h : Strikes [t] powers remains gone) (ht : t.isExact = true)

include h ht

/-- No factor is left whose power is not used up. -/
lemma count_left_or (f : Expr) :
    (factorsAll remains.left).count f = 0 ∨ remains.powers.elements.count f = 0 := by
  by_contra hne
  rw [not_or] at hne
  obtain ⟨g, hg, hgf⟩ := List.countP_pos_iff.1 (Nat.pos_of_ne_zero hne.1)
  obtain ⟨r, hr, hrf⟩ := List.countP_pos_iff.1 (Nat.pos_of_ne_zero hne.2)
  have hmem : g ∈ t.factors := by
    rw [← factorsAll_singleton]
    exact h.factors.mem_iff.2 (List.mem_append_right gone hg)
  have hfree := isDecimalFree_of_isExact (hereditary_isExact.factors ht g hmem)
  obtain rfl := (beq_iff_eq_of_isDecimalFree hfree).1 hgf
  exact h.disjoint g hg ((beq_iff_eq_of_isDecimalFree_right hfree).1 hrf ▸ hr)

/-- Each factor goes as often as the powers and the term both have it, and is left for the rest. -/
lemma count_gone (f : Expr) :
    gone.count f = min (powers.elements.count f) (t.factors.count f) ∧
      (factorsAll remains.left).count f = t.factors.count f - powers.elements.count f := by
  have hfactors := h.factors.countP_eq (· == f)
  have hpowers := h.powers.countP_eq (· == f)
  rw [factorsAll_singleton, List.countP_append] at hfactors
  rw [List.countP_append] at hpowers
  have hor := h.count_left_or ht f
  unfold List.count at hor ⊢
  omega

/-- The factors that are gone are the limited powers. -/
lemma gone_perm (hw : powers.WellFormed) : gone.Perm (powers.limited t).elements := by
  have hwlimited := hw.congr (Powers.bases_limited powers t)
  refine perm_of_count (fun f hf => ?_) (fun f hf => ?_) fun f => ?_
  · have hmem : f ∈ powers.elements := h.powers.mem_iff.2 (List.mem_append_left _ hf)
    exact hw.isDecimalFree f (Powers.mem_bases_of_mem_elements hmem)
  · exact hwlimited.isDecimalFree f (Powers.mem_bases_of_mem_elements hf)
  · rw [(h.count_gone ht f).1, hw.count_limited]

end Strikes

/-- Dividing an exact term by powers of expressions that are no constants takes each factor away as
often as its exponent says, or as often as it occurs, and the value of the term is that of the
quotient times what has been taken away.  Products and negations may be among the powers, but are
never met. -/
theorem divideOut_takes {t : Expr} (ht : t.isExact = true) {powers : Powers}
    (hnodup : (powers.map Prod.fst).Nodup)
    (hconstant : ∀ b ∈ powers.map Prod.fst, b.isConstant = false) :
    (∀ f, (t.divideOut powers).factors.count f =
      t.factors.count f - powers.elements.count f) ∧
    ∀ ρ : String → ℚ, t.Defined ρ → (t.divideOut powers).Defined ρ ∧
      t.value ρ = (t.divideOut powers).value ρ *
        (powers.map fun power => power.1.value ρ ^ min power.2 (t.factors.count power.1)).prod := by
  have hw := Powers.wellFormed_findable hnodup hconstant
  obtain ⟨gone, h⟩ := exists_strikes t hw
  refine ⟨fun f => ?_, fun ρ hdef => ⟨(hereditary_defined ρ).divideOut hdef powers, ?_⟩⟩
  · rw [← divideOut_findable ht, factors_divideOut, (h.count_gone ht f).2]
    by_cases hf : (f.isExact && f.isWhole) = true
    · rw [Powers.count_elements_findable hf]
    · rw [count_factors_eq_zero ht hf, Nat.zero_sub, Nat.zero_sub]
  · rw [(interprets_value ρ).divideOut h ht, divideOut_findable ht,
      ((h.gone_perm ht hw).map _).prod_eq, Powers.prod_elements, prod_limited_findable ht]

/-- For instance a factor that occurs more often than it is taken, and two that are asked for more
often than they occur, with a sign outside and one inside of the product. -/
theorem divideOut_takes_signed :
    (negation (product (var "x") (var "x") [negation (var "y")])).divideOut
        [(var "x", 1), (var "y", 2), (sum (var "x") (integer 1) [], 2)] = var "x" ∧
      (var "x").factors.count (var "x") = 2 - 1 ∧
      (negation (product (var "x") (var "x") [negation (var "y")])).value
          (fun s => if s = "x" then 3 else 5) =
        (var "x").value (fun s => if s = "x" then 3 else 5) * (3 ^ 1 * 5 ^ 1 * 4 ^ 0) := by
  have hexact : (negation (product (var "x") (var "x") [negation (var "y")])).isExact = true := rfl
  have hdef : (negation (product (var "x") (var "x") [negation (var "y")])).Defined
      fun s => if s = "x" then 3 else 5 := by simp [Defined, AllDefined]
  have hnodup : (([(var "x", 1), (var "y", 2), (sum (var "x") (integer 1) [], 2)] : Powers).map
      Prod.fst).Nodup := by simp
  have hconstant : ∀ b ∈ ([(var "x", 1), (var "y", 2), (sum (var "x") (integer 1) [], 2)] :
      Powers).map Prod.fst, b.isConstant = false := by simp [isConstant]
  obtain ⟨hcount, hvalue⟩ := divideOut_takes hexact hnodup hconstant
  refine ⟨rfl, hcount (var "x"), (hvalue _ hdef).2.trans (congrArg _ ?_)⟩
  have hx : (negation (product (var "x") (var "x") [negation (var "y")])).factors.count
      (var "x") = 2 := rfl
  have hy : (negation (product (var "x") (var "x") [negation (var "y")])).factors.count
      (var "y") = 1 := rfl
  have hsum : (negation (product (var "x") (var "x") [negation (var "y")])).factors.count
      (sum (var "x") (integer 1) []) = 0 := rfl
  have hne : ¬ "y" = "x" := by decide
  simp only [List.map_cons, List.map_nil, List.prod_cons, List.prod_nil, hx, hy, hsum]
  norm_num [value, hne]

end Expr

end TermAlgebra
