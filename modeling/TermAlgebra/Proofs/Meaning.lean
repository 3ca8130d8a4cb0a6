import Mathlib.Tactic
import TermAlgebra.Proofs.Grammar
import TermAlgebra.Proofs.Value

/-!
# The meaning of phrases

Two expressions have the same meaning if they have exact values for the same assignments, and equal
ones (`Expr.SameMeaning`).  The grammar groups to the left, so a phrase that is put together of
phrases need not stand for the tree that is put together of theirs; but it stands for one of the
same meaning.  A sign may be set before a whole term (`Grammar.exists_derives_negation`), and a term
may be multiplied by a term (`Grammar.exists_derives_product`), and an expression added to an
expression (`Grammar.exists_derives_sum`), without any parentheses.
-/

namespace TermAlgebra

namespace Expr

/-- Two expressions have the same meaning if they have values for the same assignments, and the same
ones. -/
structure SameMeaning (e e' : Expr) : Prop where
  defined (ρ : String → ℚ) : e.Defined ρ ↔ e'.Defined ρ
  value (ρ : String → ℚ) : e.value ρ = e'.value ρ

/-! ### Joined expressions -/

/-- A joined expression has a value if its two operands have one. -/
lemma defined_join (ρ : String → ℚ) (op : AssocOp) (l r : Expr) :
    (join op l r).Defined ρ ↔ l.Defined ρ ∧ r.Defined ρ :=
  (hereditary_defined ρ).join op l r

/-- The value of a joined expression is the sum or product of the values of its operands. -/
lemma value_join (ρ : String → ℚ) (op : AssocOp) (l r : Expr) :
    (join op l r).value ρ = op.total [l.value ρ, r.value ρ] := by
  rw [join_eq_ofTerms_merged, value_ofTerms ρ op (merged_ne_nil op (List.cons_ne_nil l [r])),
    total_merged]
  rfl

namespace SameMeaning

variable {a b c : Expr}

/-- Every expression has its own meaning. -/
lemma refl (e : Expr) : SameMeaning e e :=
  ⟨fun _ => Iff.rfl, fun _ => rfl⟩

/-- Having the same meaning is symmetric. -/
lemma symm (h : SameMeaning a b) : SameMeaning b a :=
  ⟨fun ρ => (h.defined ρ).symm, fun ρ => (h.value ρ).symm⟩

/-- Having the same meaning is transitive. -/
lemma trans (hab : SameMeaning a b) (hbc : SameMeaning b c) : SameMeaning a c :=
  ⟨fun ρ => (hab.defined ρ).trans (hbc.defined ρ), fun ρ => (hab.value ρ).trans (hbc.value ρ)⟩

/-- Negations have the same meaning if their operands have. -/
lemma negation (h : SameMeaning a b) : SameMeaning (negation a) (negation b) where
  defined := h.defined
  value ρ := congrArg Neg.neg (h.value ρ)

/-- Joined expressions have the same meaning if their operands have. -/
lemma join {l l' r r' : Expr} (op : AssocOp) (hl : SameMeaning l l') (hr : SameMeaning r r') :
    SameMeaning (join op l r) (join op l' r') where
  defined ρ := by rw [defined_join, defined_join, hl.defined, hr.defined]
  value ρ := by rw [value_join, value_join, hl.value, hr.value]

/-- Divisions have the same meaning if their sides have. -/
lemma division {l l' r r' : Expr} (hl : SameMeaning l l') (hr : SameMeaning r r') :
    SameMeaning (division l r) (division l' r') where
  defined ρ := by rw [Defined, Defined, hl.defined, hr.defined, hr.value]
  value ρ := by rw [Expr.value, Expr.value, hl.value, hr.value]

/-- A pair of parentheses has no meaning. -/
lemma parentheses (e : Expr) : SameMeaning e (parentheses e) :=
  ⟨fun _ => Iff.rfl, fun _ => rfl⟩

/-- Two signs before an expression cancel out. -/
lemma negation_negation (e : Expr) : SameMeaning e (.negation (.negation e)) where
  defined _ := Iff.rfl
  value ρ := (neg_neg (e.value ρ)).symm

/-- A sum or product may be grouped to the left. -/
lemma join_assoc (op : AssocOp) (a b c : Expr) :
    SameMeaning (.join op (.join op a b) c) (.join op a (.join op b c)) where
  defined ρ := by simp only [defined_join, and_assoc]
  value ρ := by
    simp only [value_join]
    cases op <;> simp [add_assoc, mul_assoc]

/-- A sign before a product may be set before its left operand. -/
lemma negation_join_product (l r : Expr) :
    SameMeaning (.join .product (.negation l) r) (.negation (.join .product l r)) where
  defined ρ := by simp only [defined_join, Defined]
  value ρ := by simp [value_join, Expr.value]

/-- A sign before a division may be set before its left side. -/
lemma negation_division (l r : Expr) :
    SameMeaning (.division (.negation l) r) (.negation (.division l r)) where
  defined _ := Iff.rfl
  value ρ := neg_div (r.value ρ) (l.value ρ)

/-- A product with a quotient may be divided as a whole. -/
lemma division_join (a b c : Expr) :
    SameMeaning (.division (.join .product a b) c) (.join .product a (.division b c)) where
  defined ρ := by simp only [defined_join, Defined, and_assoc]
  value ρ := by simp [value_join, Expr.value, mul_div_assoc]

/-- A node of terms has a meaning that depends on which of them have values and on their sum or
product. -/
lemma ofTerms (op : AssocOp) {es es' : List Expr} (hes : es ≠ []) (hes' : es' ≠ [])
    (hdefined : ∀ ρ, (∀ t ∈ es, t.Defined ρ) ↔ ∀ t ∈ es', t.Defined ρ)
    (hvalue : ∀ ρ, op.total (es.map (Expr.value ρ)) = op.total (es'.map (Expr.value ρ))) :
    SameMeaning (.ofTerms op es) (.ofTerms op es') where
  defined ρ := by
    rw [(hereditary_defined ρ).ofTerms op hes, (hereditary_defined ρ).ofTerms op hes', hdefined]
  value ρ := by rw [value_ofTerms ρ op hes, value_ofTerms ρ op hes', hvalue]

/-- An operand joined to a node of terms is one more term. -/
lemma join_ofTerms (op : AssocOp) (l : Expr) {es : List Expr} (hes : es ≠ []) :
    SameMeaning (.join op l (.ofTerms op es)) (.ofTerms op (l :: es)) where
  defined ρ := by
    rw [defined_join, (hereditary_defined ρ).ofTerms op hes,
      (hereditary_defined ρ).ofTerms op (List.cons_ne_nil l es), List.forall_mem_cons]
  value ρ := by
    rw [value_join, value_ofTerms ρ op hes, value_ofTerms ρ op (List.cons_ne_nil l es),
      List.map_cons, ← AssocOp.total_cons]

/-- The first two terms of a node may be joined. -/
lemma ofTerms_join_cons (op : AssocOp) (l r : Expr) (es : List Expr) :
    SameMeaning (.ofTerms op (.join op l r :: es)) (.ofTerms op (l :: r :: es)) := by
  refine .ofTerms op (List.cons_ne_nil _ _) (List.cons_ne_nil _ _) (fun ρ => ?_) fun ρ => ?_
  · simp only [List.forall_mem_cons, defined_join, and_assoc]
  · simp only [List.map_cons, value_join]
    cases op <;> simp [add_assoc, mul_assoc]

/-- Nodes have the same meaning if their first terms have and the others are the same. -/
lemma ofTerms_cons (op : AssocOp) (h : SameMeaning a b) (es : List Expr) :
    SameMeaning (.ofTerms op (a :: es)) (.ofTerms op (b :: es)) := by
  refine .ofTerms op (List.cons_ne_nil _ _) (List.cons_ne_nil _ _) (fun ρ => ?_) fun ρ => ?_
  · rw [List.forall_mem_cons, List.forall_mem_cons, h.defined]
  · rw [List.map_cons, List.map_cons, h.value]

/-- A factor one may be left out among others. -/
lemma product_one {es : List Expr} (hes : es ≠ []) :
    SameMeaning (.ofTerms .product (integer 1 :: es)) (.ofTerms .product es) := by
  refine .ofTerms .product (List.cons_ne_nil _ _) hes (fun ρ => ?_) fun ρ => ?_
  · simp [Defined]
  · simp [Expr.value]

/-- A sign before the first factor may be set before the product. -/
lemma product_negation (e : Expr) (es : List Expr) :
    SameMeaning (.ofTerms .product (.negation e :: es)) (.negation (.ofTerms .product (e :: es)))
    where
  defined ρ := by
    rw [Defined, (hereditary_defined ρ).ofTerms _ (List.cons_ne_nil _ _),
      (hereditary_defined ρ).ofTerms _ (List.cons_ne_nil _ _), List.forall_mem_cons,
      List.forall_mem_cons, Defined]
  value ρ := by
    rw [Expr.value, value_ofTerms ρ _ (List.cons_ne_nil _ _),
      value_ofTerms ρ _ (List.cons_ne_nil _ _)]
    simp [Expr.value]

/-- A negative integer is a negated positive one. -/
lemma negation_integer (n : ℤ) : SameMeaning (integer (-n)) (.negation (integer n)) where
  defined _ := Iff.rfl
  value ρ := by
    rw [Expr.value, Expr.value, Expr.value, Int.cast_neg]

end SameMeaning

end Expr

namespace Grammar

open TermAlgebra.Expr (SameMeaning)

/-! ### Phrases of phrases -/

/-- A sign before a term negates it. -/
lemma exists_derives_negation {ts : List Token} {e : Expr} (h : Derives .term ts e) :
    ∃ t, Derives .term (.operator .minus :: ts) t ∧ SameMeaning t (.negation e) := by
  -- The sign ends up in front of the leftmost operand of the term.
  generalize hlevel : Level.term = level at h
  induction h with
  | @multiply ts us l r hl hr ih =>
    obtain ⟨t, ht, hmeaning⟩ := ih rfl
    exact ⟨_, .multiply ht hr,
      (hmeaning.join .product (.refl r)).trans (.negation_join_product l r)⟩
  | @divide ts us l r hl hr ih =>
    obtain ⟨t, ht, hmeaning⟩ := ih rfl
    exact ⟨_, .divide ht hr, (hmeaning.division (.refl r)).trans (.negation_division l r)⟩
  | @signed ts e he => exact ⟨_, .signed (.negative he), .refl _⟩
  | _ => exact nomatch hlevel

/-- A term multiplied by a term is a term for their product. -/
lemma exists_derives_product {ts us : List Token} {l r : Expr} (hl : Derives .term ts l)
    (hr : Derives .term us r) :
    ∃ t, Derives .term (ts ++ .operator .times :: us) t ∧ SameMeaning t (.join .product l r) := by
  -- Induction on the right term: its last operand is the last one of the whole term, too.
  generalize hlevel : Level.term = level at hr
  induction hr with
  | @multiply us vs r s hr hs ih =>
    obtain ⟨t, ht, hmeaning⟩ := ih rfl
    refine ⟨.join .product t s, ?_, ?_⟩
    · simpa using ht.multiply hs
    · exact (hmeaning.join .product (.refl s)).trans (.join_assoc .product l r s)
  | @divide us vs r s hr hs ih =>
    obtain ⟨t, ht, hmeaning⟩ := ih rfl
    refine ⟨.division t s, ?_, ?_⟩
    · simpa using ht.divide hs
    · exact (hmeaning.division (.refl s)).trans (.division_join l r s)
  | @signed us r hr => exact ⟨_, hl.multiply hr, .refl _⟩
  | _ => exact nomatch hlevel

/-- An expression added to an expression is one for their sum. -/
lemma exists_derives_sum {ts us : List Token} {l r : Expr} (hl : Derives .expression ts l)
    (hr : Derives .expression us r) :
    ∃ t, Derives .expression (ts ++ .operator .plus :: us) t ∧
      SameMeaning t (.join .sum l r) := by
  -- Induction on the right expression, as for products.
  generalize hlevel : Level.expression = level at hr
  induction hr with
  | @add us vs r s hr hs ih =>
    obtain ⟨t, ht, hmeaning⟩ := ih rfl
    refine ⟨.join .sum t s, ?_, ?_⟩
    · simpa using ht.add hs
    · exact (hmeaning.join .sum (.refl s)).trans (.join_assoc .sum l r s)
  | @subtract us vs r s hr hs ih =>
    obtain ⟨t, ht, hmeaning⟩ := ih rfl
    refine ⟨.join .sum t (.negation s), ?_, ?_⟩
    · simpa using ht.subtract hs
    · exact (hmeaning.join .sum (.refl _)).trans (.join_assoc .sum l r (.negation s))
  | @term us r hr => exact ⟨_, hl.add hr, .refl _⟩
  | _ => exact nomatch hlevel

end Grammar

end TermAlgebra
