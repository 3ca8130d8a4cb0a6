import Mathlib.Tactic
import TermAlgebra.Proofs.Distributing

/-!
# The order of an expanded product

Where the products of an expanded product stand.

To expand a product is to choose one term of every expanded factor, in all possible ways.  A choice
is given by the positions of what it takes (`Selects`), and these positions, read as the digits of
one number in the mixed base of the numbers of terms, are its place among all choices
(`choiceIndex`).  The first factor has the lowest digit, so that its terms vary fastest.

Every choice stands at its place (`getElem?_choices`), and every place is that of exactly one choice
(`existsUnique_selects`).  Nothing is lost when the products of the choices are gathered into a sum,
so that the terms of an expanded product are known one by one (`expand_product_choices`).
-/

namespace TermAlgebra.Expr

/-! ### Positions -/

/-- Taking from every list the item at the position given for it, one finds these items. -/
inductive Selects {α : Type} : List (List α) → List ℕ → List α → Prop
  /-- There is nothing to take where there are no lists. -/
  | nil : Selects [] [] []
  /-- An item of the first list goes before what is taken from the others. -/
  | cons {xs : List α} {xss : List (List α)} {i : ℕ} {is : List ℕ} {a : α} {as : List α}
      (first : xs[i]? = some a) (others : Selects xss is as) :
      Selects (xs :: xss) (i :: is) (a :: as)

/-- The place of a choice: its positions are the digits of a number, the first of them the lowest,
in the mixed base of the numbers of items. -/
def choiceIndex : List ℕ → List ℕ → ℕ
  | size :: sizes, i :: is => i + size * choiceIndex sizes is
  | _, _ => 0

/-- For instance the second of three, the first of two and the third of four items. -/
example : choiceIndex [3, 2, 4] [1, 0, 2] = 1 + 3 * (0 + 2 * 2) := by decide

/-- Every place is that of exactly one choice. -/
theorem existsUnique_selects {α : Type} {xss : List (List α)} {k : ℕ}
    (h : k < (xss.map List.length).prod) :
    ∃! is, (∃ as, Selects xss is as) ∧ choiceIndex (xss.map List.length) is = k := by
  induction xss generalizing k with
  | nil =>
    rw [List.map_nil, List.prod_nil, Nat.lt_one_iff] at h
    refine ⟨[], ⟨⟨[], .nil⟩, h.symm⟩, ?_⟩
    rintro is ⟨⟨as, hselects⟩, -⟩
    cases hselects
    rfl
  | cons xs xss ih =>
    rw [List.map_cons, List.prod_cons] at h
    have hsize : 0 < xs.length := Nat.pos_of_ne_zero fun hzero => by simp [hzero] at h
    -- The lowest digit is the remainder, and the others are those of the quotient.
    obtain ⟨is, ⟨⟨as, hselects⟩, hindex⟩, hunique⟩ := ih (Nat.div_lt_of_lt_mul h)
    have hdigit : k % xs.length < xs.length := Nat.mod_lt k hsize
    refine ⟨k % xs.length :: is,
      ⟨⟨_, .cons (List.getElem?_eq_getElem hdigit) hselects⟩, ?_⟩, ?_⟩
    · rw [List.map_cons, choiceIndex, hindex, Nat.mod_add_div]
    · rintro js ⟨⟨bs, hother⟩, hplace⟩
      cases hother with
      | @cons _ _ j js _ bs hfirst hrest =>
        obtain ⟨hj, -⟩ := List.getElem?_eq_some_iff.1 hfirst
        rw [List.map_cons, choiceIndex] at hplace
        have hmod : k % xs.length = j := by
          rw [← hplace, Nat.add_mul_mod_self_left, Nat.mod_eq_of_lt hj]
        have hdiv : k / xs.length = choiceIndex (xss.map List.length) js := by
          rw [← hplace, Nat.add_mul_div_left _ _ hsize, Nat.div_eq_of_lt hj, Nat.zero_add]
        rw [hmod, hunique js ⟨⟨bs, hrest⟩, hdiv.symm⟩]

/-! ### Choices -/

/-- Where the pairs of two lists are listed with the item of the first list varying fastest, the
place of a pair is told by the places of its items. -/
lemma getElem?_flatMap_map {α β γ : Type} (f : α → β → γ) {as : List α} {bs : List β} {i j : ℕ}
    {a : α} {b : β} (ha : as[i]? = some a) (hb : bs[j]? = some b) :
    (bs.flatMap fun b => as.map fun a => f a b)[i + as.length * j]? = some (f a b) := by
  obtain ⟨hi, -⟩ := List.getElem?_eq_some_iff.1 ha
  induction bs generalizing j with
  | nil => simp at hb
  | cons c bs ih =>
    rw [List.flatMap_cons]
    cases j with
    | zero =>
      rw [List.getElem?_cons_zero, Option.some.injEq] at hb
      rw [Nat.mul_zero, Nat.add_zero, List.getElem?_append_left (by rwa [List.length_map]),
        List.getElem?_map, ha, hb]
      rfl
    | succ j =>
      have hplace : i + as.length * (j + 1) = as.length + (i + as.length * j) := by ring
      rw [List.getElem?_cons_succ] at hb
      rw [hplace, List.getElem?_append_right (by rw [List.length_map]; exact Nat.le_add_right _ _),
        List.length_map, Nat.add_sub_cancel_left, ih hb]

/-- Every choice of summands stands at its place. -/
lemma getElem?_choices {es : List Expr} {is : List ℕ} {ts : List Expr}
    (h : Selects (es.map (terms .sum)) is ts) :
    (choices es)[choiceIndex ((es.map (terms .sum)).map List.length) is]? = some ts := by
  induction es generalizing is ts with
  | nil =>
    cases h
    rfl
  | cons e es ih =>
    cases h with
    | cons first others => exact getElem?_flatMap_map List.cons first (ih others)

/-! ### Expanded products -/

/-- The terms of the expanded factors of a product, factor by factor. -/
def expandedTerms (factors : List Expr) : List (List Expr) :=
  (factors.map expand).map (terms .sum)

/-- An expanded product is the sum of the products of all choices of one term of every expanded
factor.  There is one term for each choice, and a choice stands at the place that its positions
tell. -/
theorem expand_product_choices {a b : Expr} {rest : List Expr}
    (h : (product a b rest).isEmptyFree = true) :
    ∃ partials : List Expr,
      (product a b rest).expand = gather .sum partials ∧
      (product a b rest).expand.terms .sum = partials ∧
      partials.length = ((expandedTerms (a :: b :: rest)).map List.length).prod ∧
      (∀ is ts, Selects (expandedTerms (a :: b :: rest)) is ts →
        partials[choiceIndex ((expandedTerms (a :: b :: rest)).map List.length) is]? =
          some (gather .product (merged .product ts))) ∧
      ∀ k < partials.length, ∃! is, (∃ ts, Selects (expandedTerms (a :: b :: rest)) is ts) ∧
        choiceIndex ((expandedTerms (a :: b :: rest)).map List.length) is = k := by
  obtain ⟨factors, hfactors⟩ : ∃ factors, factors = (a :: b :: rest).map expand := ⟨_, rfl⟩
  have hne : factors ≠ [] := hfactors ▸ List.cons_ne_nil _ _
  have hdistributed : ∀ e ∈ factors, Distributed e :=
    hfactors ▸ distributed_map_expand ((hereditary_isEmptyFree.nary .product a b rest).1 h)
  have hnode : (product a b rest).expand = distribute factors :=
    (expand_product a b rest).trans (hfactors ▸ rfl)
  have hlength : (choices factors).length =
      ((expandedTerms (a :: b :: rest)).map List.length).prod := by
    rw [length_choices, expandedTerms, ← hfactors, List.map_map]
    rfl
  refine ⟨(choices factors).map fun c => gather .product (merged .product c), hnode, ?_, ?_,
    ?_, ?_⟩
  · -- The products of the choices are no sums, so that each stays a term of its own.
    rw [hnode, terms_distribute hne hdistributed]
    exact List.map_congr_left fun c hc => (gather_of_mem_choices hne hdistributed hc).symm
  · rw [List.length_map, hlength]
  · intro is ts hselects
    rw [expandedTerms, ← hfactors] at hselects ⊢
    rw [List.getElem?_map, getElem?_choices hselects]
    rfl
  · intro k hk
    rw [List.length_map, hlength] at hk
    exact existsUnique_selects hk

/-- For instance both second terms of two sums: the last of four products, into which the product
among the terms is merged. -/
theorem expand_product_choices_last :
    (product (sum (var "x") (var "y") []) (sum (var "z") (product (integer 2) (var "w") []) [])
        []).isEmptyFree = true ∧
      Selects (expandedTerms [sum (var "x") (var "y") [],
          sum (var "z") (product (integer 2) (var "w") []) []]) [1, 1]
        [var "y", product (integer 2) (var "w") []] ∧
      ((product (sum (var "x") (var "y") []) (sum (var "z") (product (integer 2) (var "w") []) [])
        []).expand.terms .sum)[3]? = some (product (var "y") (integer 2) [var "w"]) := by
  have hfree : (product (sum (var "x") (var "y") [])
      (sum (var "z") (product (integer 2) (var "w") []) []) []).isEmptyFree = true := rfl
  have hselects : Selects (expandedTerms [sum (var "x") (var "y") [],
      sum (var "z") (product (integer 2) (var "w") []) []]) [1, 1]
      [var "y", product (integer 2) (var "w") []] := .cons rfl (.cons rfl .nil)
  obtain ⟨partials, -, hterms, -, hplaces, -⟩ := expand_product_choices hfree
  refine ⟨hfree, hselects, ?_⟩
  rw [hterms]
  exact hplaces _ _ hselects

end TermAlgebra.Expr
