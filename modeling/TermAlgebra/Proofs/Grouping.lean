import Mathlib.Order.Bounds.Basic
import Mathlib.Tactic
import TermAlgebra.Proofs.Monomials

/-!
# Groups of common factors

How the factors of the terms of a sum are distributed among its factorizations.

Factors that occur in the same terms are taken out together, and no others
(`exists_representatives`).  So every factor of a term is among the members of just one
factorization (`Factorization.members`, `mem_members_factorizationBy`), as often as it occurs at
least in the terms that have it (`isLeast_commonExponent`).  `Factorization.TakesOut` says what
becomes of the terms: those without the members are the remainder, and from each of the others
exactly the members are gone (`takesOut_factorizationBy`).
-/

namespace TermAlgebra

/-- The factors that a factorization takes out, each as often as it is taken out. -/
def Factorization.members (F : Factorization) : List Expr :=
  F.factor.terms .product

/-- What a factorization of some terms takes out, and what it leaves of the terms. -/
structure Factorization.TakesOut (F : Factorization) (ts : List Expr) (powers : Powers) :
    Prop where
  wellFormed : powers.WellFormed
  elements : powers.elements = F.members
  together : ∀ f ∈ F.members, ∀ g, g ∈ F.members ↔
    g ∈ Expr.factorsAll ts ∧ Expr.sharing g ts = Expr.sharing f ts
  least : ∀ f ∈ F.members,
    IsLeast {n | ∃ t ∈ ts, f ∈ t.factors ∧ t.factors.count f = n} (F.members.count f)
  cofactor : ∀ f ∈ F.members,
    F.cofactor = .gather .sum ((Expr.holders f ts).map fun t => t.divideOut powers)
  remainder : ∀ f ∈ F.members, F.remainder = .gather .sum (Expr.others f ts)
  quotient : ∀ f ∈ F.members, ∀ t ∈ ts, f ∈ t.factors →
    t.factors.Perm (F.members ++ (t.divideOut powers).factors)
  exhausted : ∀ f ∈ F.members, ∃ t ∈ ts, f ∈ t.factors ∧ f ∉ (t.divideOut powers).factors

namespace Expr

/-! ### Factors -/

/-- A factor is taken as a whole, and not empty. -/
lemma isWhole_of_mem_factors {e f : Expr} (h : f ∈ e.factors) :
    f.isWhole = true ∧ f.isEmpty = false := by
  induction e using inductionOnFactors with
  | negation e ih => exact ih h
  | product a b rest ih =>
    rw [factors_product, mem_factorsAll] at h
    obtain ⟨t, ht, hf⟩ := h
    exact ih t ht hf
  | whole e he =>
    rw [factors_of_isWhole he] at h
    split at h
    · exact absurd h List.not_mem_nil
    · next hleaf =>
      rw [List.mem_singleton.1 h]
      rw [Bool.or_eq_true, not_or, Bool.not_eq_true, Bool.not_eq_true] at hleaf
      exact ⟨he, hleaf.2⟩

open Classical in
/-- The copies of an expression without decimals in a list are counted. -/
lemma count_eq_multiset_count {es : List Expr} {f : Expr} (hf : f.isDecimalFree = true) :
    es.count f = Multiset.count f (es : Multiset Expr) := by
  rw [Multiset.coe_count]
  unfold List.count
  refine List.countP_congr fun e _ => ?_
  rw [beq_iff_eq_of_isDecimalFree_right hf]
  simp

/-- The common exponent of a factor is the least number of times that it occurs. -/
lemma isLeast_commonExponent {ts : List Expr} (hne : ts ≠ []) (f : Expr) :
    IsLeast {n | ∃ t ∈ ts, t.factors.count f = n} (commonExponent ts f) := by
  have hcounts : ts.map (fun t => t.factors.count f) ≠ [] := by simpa using hne
  obtain ⟨n, hn⟩ := Option.ne_none_iff_exists'.1 (mt List.min?_eq_none_iff.1 hcounts)
  refine ⟨?_, ?_⟩
  · rw [commonExponent, hn, Option.getD_some]
    exact List.mem_map.1 (List.min?_mem hn)
  · rintro m ⟨t, ht, rfl⟩
    exact List.min?_getD_le_of_mem (List.mem_map_of_mem ht)

/-! ### Representatives -/

/-- Among items with different keys there is exactly one with the key of one of them. -/
lemma existsUnique_index {α β : Type} {xs : List α} {key : α → β} (h : (xs.map key).Nodup) {x : α}
    (hx : x ∈ xs) : ∃! i : ℕ, ∃ y ∈ xs[i]?, key y = key x := by
  obtain ⟨i, hi, rfl⟩ := List.mem_iff_getElem.1 hx
  refine ⟨i, ⟨xs[i], List.getElem?_eq_getElem hi, rfl⟩, ?_⟩
  rintro j ⟨y, hy, hkey⟩
  obtain ⟨hj, rfl⟩ := List.getElem?_eq_some_iff.1 hy
  have hinj := List.pairwise_iff_getElem.1 (List.pairwise_map.1 h)
  rcases Nat.lt_trichotomy j i with hlt | heq | hlt
  · exact absurd hkey (hinj j i hj hi hlt)
  · exact heq
  · exact absurd hkey.symm (hinj i j hi hj hlt)

/-- The factorizations of terms are those by some of their factors, one for each set of terms in
which a factor occurs. -/
lemma exists_representatives (ts : List Expr) :
    ∃ fs : List Expr, (∀ f ∈ fs, f ∈ (factorsAll ts).eraseDups) ∧
      factorizationsOf ts = fs.map (fun f => factorizationBy f ts) ∧
      (fs.map fun f => sharing f ts).Nodup ∧
      ∀ f ∈ (factorsAll ts).eraseDups, ∃ g ∈ fs, sharing g ts = sharing f ts := by
  -- For each of the marks that occur a factor with these marks is chosen.
  let marks := ((factorsAll ts).eraseDups.map fun f => sharing f ts).eraseDups
  have hmarks : ∀ m ∈ marks, ∃ f, sharing f ts = m ∧ f ∈ (factorsAll ts).eraseDups := by
    intro m hm
    obtain ⟨f, hf, hm⟩ := List.mem_map.1 (List.mem_eraseDups.1 hm)
    exact ⟨f, hm, hf⟩
  obtain ⟨fs, hfs, hmem⟩ := exists_forall₂_of_forall_and hmarks
  have hsharing : fs.map (fun f => sharing f ts) = marks := by
    rw [← List.forall₂_eq_eq_eq, List.forall₂_map_left_iff]
    exact hfs.flip
  refine ⟨fs, hmem, ?_, ?_, ?_⟩
  · have hby : ∀ f, factorOut ts (sharing f ts) ((((factorsAll ts).eraseDups.map
        fun g => (g, sharing g ts)).filter (·.2 == sharing f ts)).map (·.1)) =
          factorizationBy f ts := fun f => factorOut_sharing f ts
    have hlist : ((factorsAll ts).eraseDups.map fun g => (g, sharing g ts)).map (·.2) =
        (factorsAll ts).eraseDups.map fun f => sharing f ts := by
      rw [List.map_map]
      rfl
    rw [factorizationsOf, hlist]
    change marks.map _ = _
    rw [← hsharing, List.map_map]
    exact List.map_congr_left fun f _ => hby f
  · rw [hsharing]
    exact nodup_eraseDups _
  · intro f hf
    have hm : sharing f ts ∈ fs.map fun f => sharing f ts := by
      rw [hsharing]
      exact List.mem_eraseDups.2 (List.mem_map_of_mem hf)
    exact List.mem_map.1 hm

/-! ### Members -/

section Members

variable {ts : List Expr} (hts : ∀ t ∈ ts, t.isDecimalFree = true) {f : Expr}
  (hf : f ∈ factorsAll ts)

include hts hf

/-- The members of a factorization are the powers that are taken out. -/
lemma members_factorizationBy :
    (factorizationBy f ts).members = (companionPowers f ts).elements := by
  have hwhole : ∀ g ∈ (companionPowers f ts).elements, g.isWhole = true ∧ g.isEmpty = false := by
    intro g hg
    have hbase := Powers.mem_bases_of_mem_elements hg
    rw [bases_companionPowers] at hbase
    obtain ⟨t, -, hgt⟩ := mem_factorsAll.1 (mem_factorsAll_of_mem_companions hbase)
    exact isWhole_of_mem_factors hgt
  rw [Factorization.members, factorizationBy,
    gather_eq_ofTerms .product fun g hg => (hwhole g hg).2]
  exact terms_ofTerms (elements_companionPowers_ne_nil (mem_eraseDups_factorsAll hts hf))
    fun g hg => isNary_of_isWhole (hwhole g hg).1

/-- The members of a factorization are the factors that occur in the same terms. -/
lemma mem_members_factorizationBy {g : Expr} :
    g ∈ (factorizationBy f ts).members ↔ g ∈ factorsAll ts ∧ sharing g ts = sharing f ts := by
  rw [members_factorizationBy hts hf]
  constructor
  · intro hg
    have hbase := Powers.mem_bases_of_mem_elements hg
    rw [bases_companionPowers] at hbase
    exact ⟨mem_factorsAll_of_mem_companions hbase, beq_iff_eq.1 (List.mem_filter.1 hbase).2⟩
  · rintro ⟨hg, hsharing⟩
    refine mem_elements_companionPowers hf (List.mem_filter.2 ⟨?_, beq_iff_eq.2 hsharing⟩)
    exact mem_eraseDups_factorsAll hts hg

/-- Each member is taken out as often as it occurs at least in the terms. -/
lemma count_members_factorizationBy {g : Expr} (hg : g ∈ (factorizationBy f ts).members) :
    (factorizationBy f ts).members.count g = commonExponent (holders f ts) g := by
  have hmem := (mem_members_factorizationBy hts hf).1 hg
  have hcompanion : g ∈ companions f ts :=
    List.mem_filter.2 ⟨mem_eraseDups_factorsAll hts hmem.1, beq_iff_eq.2 hmem.2⟩
  have hnodup : (companions f ts).Nodup := (nodup_eraseDups (factorsAll ts)).filter _
  rw [members_factorizationBy hts hf,
    count_eq_multiset_count (isDecimalFree_of_mem_factorsAll hts hmem.1), companionPowers,
    Powers.count_elements hnodup, if_pos hcompanion]

/-- The factorization by a factor takes out the factors that occur in the same terms. -/
lemma takesOut_factorizationBy :
    (factorizationBy f ts).TakesOut ts (companionPowers f ts) := by
  have hsharing : ∀ {g}, g ∈ (factorizationBy f ts).members →
      ∀ t ∈ ts, t.factors.contains g = t.factors.contains f := fun hg =>
    List.map_inj_left.1 ((mem_members_factorizationBy hts hf).1 hg).2
  have hholders : ∀ {g}, g ∈ (factorizationBy f ts).members → holders g ts = holders f ts :=
    fun hg => List.filter_congr (hsharing hg)
  have hothers : ∀ {g}, g ∈ (factorizationBy f ts).members → others g ts = others f ts :=
    fun hg => List.filter_congr fun t ht => congrArg _ (hsharing hg t ht)
  have hholder : ∀ {g t}, g ∈ (factorizationBy f ts).members →
      (t ∈ holders f ts ↔ t ∈ ts ∧ g ∈ t.factors) := fun {g t} hg => by
    rw [← hholders hg, mem_holders hts ((mem_members_factorizationBy hts hf).1 hg).1]
  have hquotient : ∀ t ∈ holders f ts, t.factors.Perm
      ((factorizationBy f ts).members ++ (t.divideOut (companionPowers f ts)).factors) := by
    intro t ht
    rw [members_factorizationBy hts hf]
    exact factors_perm_of_mem_holders hts f ht
  have hleast : ∀ g ∈ (factorizationBy f ts).members,
      IsLeast {n | ∃ t ∈ ts, g ∈ t.factors ∧ t.factors.count g = n}
        ((factorizationBy f ts).members.count g) := by
    intro g hg
    have hset : {n | ∃ t ∈ ts, g ∈ t.factors ∧ t.factors.count g = n} =
        {n | ∃ t ∈ holders f ts, t.factors.count g = n} := by
      simp only [hholder hg, and_assoc]
    rw [hset, count_members_factorizationBy hts hf hg]
    exact isLeast_commonExponent (holders_ne_nil hf) g
  refine ⟨wellFormed_companionPowers hts f, (members_factorizationBy hts hf).symm, ?_, hleast, ?_,
    ?_, ?_, ?_⟩
  · intro g hg g'
    rw [mem_members_factorizationBy hts hf, ((mem_members_factorizationBy hts hf).1 hg).2]
  · exact fun g hg => by rw [hholders hg]; rfl
  · exact fun g hg => by rw [hothers hg]; rfl
  · exact fun g hg t ht hgt => hquotient t ((hholder hg).2 ⟨ht, hgt⟩)
  · -- A term with the least number of copies has none left.
    intro g hg
    obtain ⟨t, ht, hgt, hcount⟩ := (hleast g hg).1
    refine ⟨t, ht, hgt, fun hleft => ?_⟩
    have hfree := isDecimalFree_of_mem_factorsAll hts ((mem_members_factorizationBy hts hf).1 hg).1
    have hsplit := (hquotient t ((hholder hg).2 ⟨ht, hgt⟩)).countP_eq (· == g)
    rw [List.countP_append] at hsplit
    have hpos := count_pos_of_contains ((contains_iff_mem hfree).2 hleft)
    unfold List.count at hcount hpos
    omega

end Members

/-! ### All factorizations -/

/-- Every factor of a term of a sum without decimals is taken out by exactly one factorization, the
factors of different factorizations occur in different terms, and each factorization takes out all
that the terms with its members share. -/
theorem factorizations_partition {a b : Expr} {rest : List Expr}
    (h : (sum a b rest).isDecimalFree = true) :
    (∀ f ∈ factorsAll (a :: b :: rest),
      ∃! i : ℕ, ∃ F ∈ (sum a b rest).factorizations[i]?, f ∈ F.members) ∧
    ((sum a b rest).factorizations.Pairwise fun F G => ∀ f ∈ F.members, ∀ g ∈ G.members,
      sharing f (a :: b :: rest) ≠ sharing g (a :: b :: rest)) ∧
    ∀ F ∈ (sum a b rest).factorizations, ∃ powers, F.TakesOut (a :: b :: rest) powers := by
  have hts := (hereditary_isDecimalFree.nary .sum a b rest).1 h
  obtain ⟨fs, hmem, hlist, hnodup, hall⟩ := exists_representatives (a :: b :: rest)
  have hfactor : ∀ f ∈ fs, f ∈ factorsAll (a :: b :: rest) :=
    fun f hf => mem_of_mem_eraseDups (hmem f hf)
  have hmembers : ∀ f ∈ fs, ∀ g, g ∈ (factorizationBy f (a :: b :: rest)).members ↔
      g ∈ factorsAll (a :: b :: rest) ∧ sharing g (a :: b :: rest) = sharing f (a :: b :: rest) :=
    fun f hf g => mem_members_factorizationBy hts (hfactor f hf)
  rw [factorizations, hlist]
  refine ⟨fun f hf => ?_, ?_, ?_⟩
  · obtain ⟨g, hg, hsharing⟩ := hall f (mem_eraseDups_factorsAll hts hf)
    have hat : ∀ i : ℕ, (∃ F ∈ (fs.map fun f => factorizationBy f (a :: b :: rest))[i]?,
        f ∈ F.members) ↔
          ∃ f' ∈ fs[i]?, sharing f' (a :: b :: rest) = sharing g (a :: b :: rest) := by
      intro i
      simp only [List.getElem?_map, Option.mem_map, exists_exists_and_eq_and]
      refine exists_congr fun f' => and_congr_right fun hf' => ?_
      rw [hmembers f' (List.mem_of_getElem? hf'), and_iff_right hf, hsharing, eq_comm]
    simp only [hat]
    exact existsUnique_index hnodup hg
  · rw [List.pairwise_map]
    refine (List.pairwise_map.1 hnodup).imp_of_mem fun {f g} hf hg hne f' hf' g' hg' => ?_
    rw [((hmembers f hf f').1 hf').2, ((hmembers g hg g').1 hg').2]
    exact hne
  · rw [List.forall_mem_map]
    exact fun f hf => ⟨_, takesOut_factorizationBy hts (hfactor f hf)⟩

/-- For instance a square with another factor, and all of it with more in a negated product. -/
theorem factorizations_partition_square :
    (sum (product (var "x") (var "x") [var "y"]) (negation (product (var "x")
      (product (var "x") (var "x") []) [var "y", var "z"])) [var "z"]).factorizations =
        [⟨product (var "x") (var "x") [var "y"],
          sum (integer 1) (negation (product (var "x") (var "z") [])) [], var "z"⟩,
        ⟨var "z", sum (negation (product (var "x") (var "x") [var "x", var "y"])) (integer 1) [],
          product (var "x") (var "x") [var "y"]⟩] ∧
    (∃! i : ℕ, ∃ F ∈ (sum (product (var "x") (var "x") [var "y"]) (negation (product (var "x")
      (product (var "x") (var "x") []) [var "y", var "z"])) [var "z"]).factorizations[i]?,
        var "x" ∈ F.members) ∧
    IsLeast {n | ∃ t ∈ [product (var "x") (var "x") [var "y"], negation (product (var "x")
      (product (var "x") (var "x") []) [var "y", var "z"]), var "z"],
        var "x" ∈ t.factors ∧ t.factors.count (var "x") = n} 2 := by
  have hfree : (sum (product (var "x") (var "x") [var "y"]) (negation (product (var "x")
      (product (var "x") (var "x") []) [var "y", var "z"])) [var "z"]).isDecimalFree = true := rfl
  obtain ⟨hunique, -, htakes⟩ := factorizations_partition hfree
  obtain ⟨powers, htakes⟩ := htakes _ List.mem_cons_self
  refine ⟨rfl, hunique (var "x") List.mem_cons_self, ?_⟩
  exact htakes.least (var "x") List.mem_cons_self

end Expr

end TermAlgebra
