import Mathlib.Tactic
import TermAlgebra.Proofs.Factorization
import TermAlgebra.Proofs.Folding
import TermAlgebra.Simplify.Collect
import TermAlgebra.Simplify.Flatten
import TermAlgebra.Simplify.Run

/-!
# Rewriting

The elementary rewritings that simplification is made of.

`Rewrites` is the least reflexive and transitive relation that allows parts of a tree to be
rewritten and contains the rules of the passes: parentheses are dropped, negations become products,
terms are merged, gathered, distributed and folded, quotients are reduced, common factors are taken
out, and undefined values are labelled.  Each rule has the value of what it replaces wherever that
has one, so all of rewriting does (`Rewrites.refines`).  Rewriting keeps hereditary properties that
sides of divisions may be rewritten under (`Rewrites.preserves`), so that it brings in no new kinds
of nodes but arithmetic, and no deeper divisions (`Rewrites.within`).
-/

namespace TermAlgebra

/-- A factorization before its product and sum are merged with their parts. -/
def Factorization.unmerged (F : Factorization) : Expr :=
  .ofTerms .sum (.product F.factor F.cofactor [] ::
    if F.remainder.isEmpty then [] else [F.remainder])

namespace Expr

/-- One expression can be rewritten to another one by the rules of simplification. -/
inductive Rewrites : Expr → Expr → Prop
  | refl (e : Expr) : Rewrites e e
  | trans {a b c : Expr} : Rewrites a b → Rewrites b c → Rewrites a c
  | negation {e e' : Expr} : Rewrites e e' → Rewrites (negation e) (negation e')
  | division {l l' r r' : Expr} : Rewrites l l' → Rewrites r r' →
      Rewrites (division l r) (division l' r')
  | term (op : AssocOp) (before after : List Expr) {t t' : Expr} : Rewrites t t' →
      Rewrites (ofTerms op (before ++ t :: after)) (ofTerms op (before ++ t' :: after))
  | unwrap (e : Expr) : Rewrites (parentheses e) e
  | sign (e : Expr) : Rewrites (.negation e) (product (integer (-1)) e [])
  | merge (op : AssocOp) {es : List Expr} : es ≠ [] →
      Rewrites (ofTerms op es) (ofTerms op (merged op es))
  | gather (op : AssocOp) {es : List Expr} : es ≠ [] →
      Rewrites (ofTerms op es) (gather op es)
  | distribute {es : List Expr} : es ≠ [] →
      Rewrites (ofTerms .product es) (distribute es)
  | fold (op : AssocOp) {es : List Expr} {r : Expr} : es ≠ [] → foldTerms op es = .ok r →
      Rewrites (ofTerms op es) r
  | reduce {l r q : Expr} : reduceQuotient l r = .ok q → Rewrites (.division l r) q
  | factor {es : List Expr} {F : Factorization} : es ≠ [] → F ∈ factorizationsOf es →
      Rewrites (ofTerms .sum es) F.unmerged
  | label (label label' : Decimal.Label) :
      Rewrites (decimal (.undefined label)) (decimal (.undefined label'))

/-- A factorization of terms has every hereditary property of the terms. -/
lemma Hereditary.unmerged {Q : Expr → Prop} (hQ : Hereditary Q) {es : List Expr}
    {F : Factorization} (h : ∀ e ∈ es, Q e) (hF : F ∈ factorizationsOf es) : Q F.unmerged := by
  obtain ⟨f, hf, rfl⟩ := mem_factorizationsOf.1 hF
  have hproduct : Q (product (factorizationBy f es).factor (factorizationBy f es).cofactor []) := by
    rw [hQ.nary, List.forall_mem_cons, List.forall_mem_singleton]
    exact ⟨hQ.factor h hf, hQ.cofactor h hf⟩
  unfold Factorization.unmerged
  rw [hQ.ofTerms .sum (List.cons_ne_nil _ _), List.forall_mem_cons]
  refine ⟨hproduct, fun t ht => ?_⟩
  split at ht
  · exact absurd ht List.not_mem_nil
  · next hremainder =>
    rw [List.mem_singleton.1 ht]
    exact (hQ.remainder h f).resolve_left hremainder

/-! ### Values -/

section Value

variable {ρ : String → ℚ}

/-- A reduced quotient has the value of the quotient. -/
lemma refines_reduceQuotient {l r q : Expr} (h : reduceQuotient l r = .ok q) :
    Refines ρ (division l r) q := by
  intro hdef
  have hl := isDecimalFree_of_isExact (isExact_of_defined hdef.1)
  have hr := isDecimalFree_of_isExact (isExact_of_defined hdef.2.1)
  rw [reduceQuotient_eq hl hr, Except.ok.injEq] at h
  cases hq : integerQuotient? l r with
  | none =>
    rw [hq, Option.getD_none] at h
    exact h ▸ ⟨hdef, rfl⟩
  | some c =>
    rw [hq, Option.getD_some] at h
    obtain ⟨a, b, rfl, rfl, hb, hdvd, rfl⟩ := integerQuotient?_eq_some_iff.1 hq
    rw [← h]
    refine ⟨trivial, ?_⟩
    simp only [value]
    exact Int.cast_div hdvd (by exact_mod_cast hb.ne')

/-- A factorization has the value of the sum, merged or not. -/
lemma refines_unmerged {es : List Expr} {F : Factorization} (hne : es ≠ [])
    (hF : F ∈ factorizationsOf es) : Refines ρ (ofTerms .sum es) F.unmerged := by
  intro hdef
  have hQ := hereditary_defined ρ
  have hes := (hQ.ofTerms .sum hne).1 hdef
  refine ⟨hQ.unmerged hes hF, ?_⟩
  obtain ⟨f, hf, rfl⟩ := mem_factorizationsOf.1 hF
  rw [value_ofTerms ρ .sum hne, AssocOp.total_sum, ← value_factorizationBy hes hf]
  unfold Factorization.unmerged
  by_cases hempty : (factorizationBy f es).remainder.isEmpty = true
  · rw [if_pos hempty, isEmpty_iff.1 hempty]
    simp [ofTerms, value, values]
  · rw [if_neg hempty, value_ofTerms ρ .sum (List.cons_ne_nil _ _)]
    simp [value_nary]

/-- Rewriting keeps the value wherever there is one. -/
theorem Rewrites.refines {e e' : Expr} (h : Rewrites e e') : Refines ρ e e' := by
  have hQ := hereditary_defined ρ
  induction h with
  | refl e => exact Refines.refl e
  | trans _ _ hab hbc => exact hab.trans hbc
  | negation _ ih =>
    intro hdef
    obtain ⟨hdef', hvalue⟩ := ih hdef
    exact ⟨hdef', by rw [value, value, hvalue]⟩
  | division _ _ hl hr =>
    rintro ⟨hdl, hdr, hne⟩
    obtain ⟨hdl', hvl⟩ := hl hdl
    obtain ⟨hdr', hvr⟩ := hr hdr
    exact ⟨⟨hdl', hdr', hvr ▸ hne⟩, by rw [value, value, hvl, hvr]⟩
  | term op before after _ ih =>
    intro hdef
    rw [hQ.ofTerms op (by simp)] at hdef ⊢
    simp only [List.forall_mem_append, List.forall_mem_cons] at hdef ⊢
    obtain ⟨hdef', hvalue⟩ := ih hdef.2.1
    refine ⟨⟨hdef.1, hdef', hdef.2.2⟩, ?_⟩
    rw [value_ofTerms ρ op (by simp), value_ofTerms ρ op (by simp)]
    simp only [List.map_append, List.map_cons, hvalue]
  | unwrap e => exact fun hdef => ⟨hdef, rfl⟩
  | sign e =>
    intro hdef
    refine ⟨⟨trivial, hdef, trivial⟩, ?_⟩
    rw [value_nary]
    simp [value]
  | merge op hne =>
    intro hdef
    rw [hQ.ofTerms op hne] at hdef
    rw [hQ.ofTerms op (merged_ne_nil op hne), value_ofTerms ρ op (merged_ne_nil op hne),
      value_ofTerms ρ op hne, total_merged]
    exact ⟨(hQ.merged op _).2 hdef, rfl⟩
  | gather op hne =>
    intro hdef
    rw [hQ.ofTerms op hne] at hdef
    rw [value_gather op hne hdef, value_ofTerms ρ op hne]
    exact ⟨hQ.gather op hne hdef, rfl⟩
  | distribute hne =>
    intro hdef
    rw [hQ.ofTerms .product hne] at hdef
    rw [value_distribute hne hdef, value_ofTerms ρ .product hne]
    exact ⟨hQ.distribute hne hdef, rfl⟩
  | fold op hne hr =>
    intro hdef
    rw [hQ.ofTerms op hne] at hdef
    refine ⟨hQ.foldTerms hne hdef hr, ?_⟩
    rw [foldTerms_eq op fun t ht => isDecimalFree_of_isExact (isExact_of_defined (hdef t ht)),
      Except.ok.injEq] at hr
    rw [← hr, value_folded op (merged_ne_nil op hne) ((hQ.merged op _).2 hdef), total_merged,
      value_ofTerms ρ op hne]
  | reduce hq => exact refines_reduceQuotient hq
  | factor hne hF => exact refines_unmerged hne hF
  | label _ _ => exact fun hdef => hdef.elim

end Value

/-! ### Preserved properties -/

/-- Hereditary properties, one for each index, of which nothing is lost when parentheses are
removed, a quotient is reduced or the sides of a division are replaced. -/
structure Preserved {ι : Type} (Q : ι → Expr → Prop) : Prop where
  hereditary (i : ι) : Hereditary (Q i)
  division {i : ι} {l r l' r' : Expr} : Q i (division l r) → (∀ j, Q j l → Q j l') →
    (∀ j, Q j r → Q j r') → Q i (division l' r')
  parentheses {i : ι} {e : Expr} : Q i (parentheses e) → Q i e
  quotient {i : ι} {l r q : Expr} : reduceQuotient l r = .ok q → Q i (.division l r) → Q i q

/-- Rewriting keeps such properties. -/
theorem Rewrites.preserves {ι : Type} {Q : ι → Expr → Prop} (hQ : Preserved Q) {e e' : Expr}
    (h : Rewrites e e') {i : ι} (he : Q i e) : Q i e' := by
  induction h generalizing i with
  | refl e => exact he
  | trans _ _ hab hbc => exact hbc (hab he)
  | negation _ ih =>
    rw [(hQ.hereditary i).negation] at he ⊢
    exact ih he
  | division _ _ hl hr => exact hQ.division he (fun _ => hl) fun _ => hr
  | term op before after _ ih =>
    rw [(hQ.hereditary i).ofTerms op (by simp)] at he ⊢
    simp only [List.forall_mem_append, List.forall_mem_cons] at he ⊢
    exact ⟨he.1, ih he.2.1, he.2.2⟩
  | unwrap e => exact hQ.parentheses he
  | sign e =>
    rw [(hQ.hereditary i).negation] at he
    rw [(hQ.hereditary i).nary]
    simpa using ⟨(hQ.hereditary i).integer (-1), he⟩
  | merge op hne =>
    rw [(hQ.hereditary i).ofTerms op hne] at he
    rw [(hQ.hereditary i).ofTerms op (merged_ne_nil op hne)]
    exact ((hQ.hereditary i).merged op _).2 he
  | gather op hne =>
    rw [(hQ.hereditary i).ofTerms op hne] at he
    exact (hQ.hereditary i).gather op hne he
  | distribute hne =>
    rw [(hQ.hereditary i).ofTerms .product hne] at he
    exact (hQ.hereditary i).distribute hne he
  | fold op hne hr =>
    rw [(hQ.hereditary i).ofTerms op hne] at he
    exact (hQ.hereditary i).foldTerms hne he hr
  | reduce hq => exact hQ.quotient hq he
  | factor hne hF =>
    rw [(hQ.hereditary i).ofTerms .sum hne] at he
    exact (hQ.hereditary i).unmerged he hF
  | label label label' => exact (hQ.hereditary i).decimal _ _ he

/-! ### Kinds of nodes -/

section Kinds

variable {p : NodeKind → Bool} (hp : AllowsArithmetic p)

include hp

omit hp in
/-- A quotient reduces to an integer, or to a decimal if one of its sides is a decimal. -/
lemma reduceQuotient?_eq_some {l r c : Expr} (h : reduceQuotient? l r = .ok (some c)) :
    (∃ n, c = integer n) ∨ ∃ d d', c = decimal d ∧ (l = decimal d' ∨ r = decimal d') := by
  unfold reduceQuotient? at h
  split at h
  · next a b =>
    rw [Except.ok.injEq] at h
    split at h
    · exact Or.inl ⟨a / b, (Option.some.inj h).symm⟩
    · simp at h
  · next hints =>
    split at h
    · next n m hn hm =>
      split at h
      · simp at h
      · obtain ⟨quotient, -, hc⟩ := Outcome.map_eq_ok_iff.1 h
        obtain rfl := Option.some.inj hc
        rw [constant?_eq_some_iff] at hn hm
        cases quotient with
        | integer k => exact Or.inl ⟨k, rfl⟩
        | decimal k =>
          right
          cases n with
          | decimal d => exact ⟨k, d, rfl, Or.inl hn⟩
          | integer a =>
            cases m with
            | decimal d => exact ⟨k, d, rfl, Or.inr hm⟩
            | integer b => exact (hints a b hn hm).elim
    · simp at h

/-- A reduced quotient has no new kinds of nodes and no deeper divisions. -/
lemma within_of_reduceQuotient {depth : ℕ} {l r q : Expr} (h : reduceQuotient l r = .ok q)
    (hlr : Within p depth (division l r)) : Within p depth q := by
  obtain ⟨quotient, hquotient, rfl⟩ := Outcome.map_eq_ok_iff.1 h
  cases quotient with
  | none => exact hlr
  | some c =>
    have hsides : l.consistsOf p = true ∧ r.consistsOf p = true := by
      have hkinds := hlr.1
      rw [consistsOf, Bool.and_eq_true, Bool.and_eq_true] at hkinds
      exact hkinds.2
    rcases reduceQuotient?_eq_some hquotient with ⟨n, rfl⟩ | ⟨d, d', rfl, rfl | rfl⟩
    · exact ⟨hp.integer, Nat.zero_le _⟩
    · exact ⟨hsides.1, Nat.zero_le _⟩
    · exact ⟨hsides.2, Nat.zero_le _⟩

/-- The kinds of nodes and the depth of divisions are bounded by such properties. -/
lemma preserved_within : Preserved (Within p) where
  hereditary := hereditary_within hp
  division {depth l r l' r'} hlr hl hr := by
    cases depth with
    | zero => exact (not_within_zero_division hlr).elim
    | succ depth =>
      rw [within_division] at hlr ⊢
      exact ⟨hlr.1, hl depth hlr.2.1, hr depth hlr.2.2⟩
  parentheses := within_of_parentheses
  quotient := within_of_reduceQuotient hp

/-- Rewriting brings in no new kinds of nodes but arithmetic, and no deeper divisions. -/
theorem Rewrites.within {e e' : Expr} (h : Rewrites e e') {depth : ℕ} (he : Within p depth e) :
    Within p depth e' :=
  h.preserves (preserved_within hp) he

end Kinds

/-- Exact expressions are rewritten to exact ones. -/
lemma Rewrites.isExact {e e' : Expr} (h : Rewrites e e') (he : e.isExact = true) :
    e'.isExact = true :=
  (h.within allowsArithmetic_exact ⟨he, le_rfl⟩).1

/-- Polynomials are rewritten to polynomials. -/
lemma Rewrites.isPolynomial {e e' : Expr} (h : Rewrites e e') (he : e.isPolynomial = true) :
    e'.isPolynomial = true :=
  (h.within allowsArithmetic_polynomial ⟨he, le_rfl⟩).1

end Expr

end TermAlgebra
