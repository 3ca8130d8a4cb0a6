import Mathlib.Tactic
import TermAlgebra.Proofs.Kinds
import TermAlgebra.Proofs.Outcome
import TermAlgebra.Simplify.Constants
import TermAlgebra.Simplify.Expand
import TermAlgebra.Simplify.Factor

/-!
# Hereditary properties

A property of expressions is hereditary if integers have it, and a node of an associative operation
or a negation has it if and only if its parts do.  Rearranging terms keeps every such property:
gathering and merging them (`Hereditary.gather`, `Hereditary.merged`), distributing a product over
its sums (`Hereditary.distribute`), folding constants (`Hereditary.foldTerms`) and taking out common
factors (`Hereditary.factor`, `Hereditary.cofactor` and `Hereditary.remainder`).

`Within` is the hereditary property to consist of given kinds of nodes and to have at most a given
division depth.
-/

namespace TermAlgebra.Expr

/-- A property that integers have, that does not depend on the value of a decimal, and that a node
of an associative operation or a negation has if and only if its parts do. -/
structure Hereditary (Q : Expr → Prop) : Prop where
  integer (n : Int) : Q (integer n)
  decimal (d d' : Decimal) : Q (decimal d) → Q (decimal d')
  negation (e : Expr) : Q (negation e) ↔ Q e
  nary (op : AssocOp) (a b : Expr) (rest : List Expr) :
    Q (nary op a b rest) ↔ ∀ t ∈ a :: b :: rest, Q t

/-! ### Terms of an expression -/

/-- The terms of the first operand stand in front of those of the others. -/
lemma merged_cons (op : AssocOp) (e : Expr) (es : List Expr) :
    merged op (e :: es) = e.terms op ++ merged op es :=
  List.flatMap_cons

/-- Merging terms that exist leaves terms. -/
lemma merged_ne_nil (op : AssocOp) {es : List Expr} (h : es ≠ []) : merged op es ≠ [] := by
  obtain ⟨e, es, rfl⟩ := List.exists_cons_of_ne_nil h
  unfold merged
  rw [List.flatMap_cons]
  intro happ
  exact terms_ne_nil op e (List.append_eq_nil_iff.1 happ).1

/-- A merged term is a term of one of the operands. -/
lemma mem_merged {op : AssocOp} {es : List Expr} {t : Expr} :
    t ∈ merged op es ↔ ∃ e ∈ es, t ∈ e.terms op := by
  unfold merged
  exact List.mem_flatMap

/-- The terms of an expression make up the expression. -/
lemma ofTerms_terms (op : AssocOp) (e : Expr) : ofTerms op (e.terms op) = e := by
  cases e with
  | nary o a b rest =>
    rw [terms]
    split
    · next h => rw [← h]; rfl
    · rfl
  | _ => rfl

/-- Every expression is a node of an operation with its operands, or no such node. -/
lemma eq_nary_or_not_isNary (op : AssocOp) (e : Expr) :
    (∃ a b rest, e = nary op a b rest) ∨ e.isNary op = false := by
  cases e with
  | nary o a b rest =>
    by_cases h : o = op
    · exact Or.inl ⟨a, b, rest, by rw [h]⟩
    · exact Or.inr (decide_eq_false h)
  | _ => exact Or.inr rfl

/-- An expression that is no node of an operation is its only term. -/
lemma terms_of_not_isNary {op : AssocOp} {e : Expr} (h : e.isNary op = false) :
    e.terms op = [e] := by
  cases e with
  | nary o a b rest =>
    simp only [isNary, decide_eq_false_iff_not] at h
    rw [terms, if_neg h]
  | _ => rfl

/-- The terms of a node are those it is made of, if none of them is such a node itself. -/
lemma terms_ofTerms {op : AssocOp} {es : List Expr} (hne : es ≠ [])
    (h : ∀ e ∈ es, e.isNary op = false) : (ofTerms op es).terms op = es := by
  match es, hne with
  | [e], _ => exact terms_of_not_isNary (h e List.mem_cons_self)
  | a :: b :: rest, _ => exact terms_nary op a b rest

/-- Only the empty expression is empty. -/
lemma isEmpty_iff {e : Expr} : e.isEmpty = true ↔ e = empty := by
  cases e <;> simp [isEmpty]

/-- Without empty terms gathering builds one node. -/
lemma gather_eq_ofTerms (op : AssocOp) {es : List Expr} (h : ∀ e ∈ es, e.isEmpty = false) :
    gather op es = ofTerms op es := by
  unfold gather
  rw [List.filter_eq_self.2]
  intro e he
  rw [h e he, Bool.not_false]

/-- Joining two operands is merging the list of the two. -/
lemma join_eq_ofTerms_merged (op : AssocOp) (a b : Expr) :
    join op a b = ofTerms op (merged op [a, b]) := by
  simp [join, merged]

/-! ### Choices of terms -/

/-- What stands in the first of two related lists is related to something in the second one. -/
lemma exists_mem_of_forall₂ {α β : Type} {R : α → β → Prop} {as : List α} {bs : List β}
    (h : List.Forall₂ R as bs) {a : α} (ha : a ∈ as) : ∃ b ∈ bs, R a b := by
  induction h with
  | nil => simp at ha
  | cons hab _ ih =>
    rcases List.mem_cons.1 ha with rfl | ha
    · exact ⟨_, List.mem_cons_self, hab⟩
    · obtain ⟨b, hb, hr⟩ := ih ha
      exact ⟨b, List.mem_cons_of_mem _ hb, hr⟩

/-- One relation between the items of two lists may be replaced by another one that follows from it
for the items of the first list. -/
lemma forall₂_of_forall {α β : Type} {R S : α → β → Prop} {as : List α} {bs : List β}
    (h : ∀ a ∈ as, ∀ b, R a b → S a b) (has : List.Forall₂ R as bs) : List.Forall₂ S as bs := by
  induction has with
  | nil => exact .nil
  | cons hab _ ih =>
    exact .cons (h _ List.mem_cons_self _ hab) (ih fun t ht => h t (List.mem_cons_of_mem _ ht))

/-- What is related item by item to a list that is not empty is not empty either. -/
lemma ne_nil_of_forall₂ {α β : Type} {R : α → β → Prop} {as : List α} {bs : List β}
    (h : List.Forall₂ R as bs) (hne : as ≠ []) : bs ≠ [] := by
  rintro rfl
  exact hne (List.forall₂_nil_right_iff.1 h)

/-- What is related to a list of two items or more consists of what is related to the first two and
what is related to the others. -/
lemma exists_forall₂_cons_cons {α β : Type} {R : α → β → Prop} {P : List β → Prop} {a b : α}
    {rest : List α} :
    (∃ bs, List.Forall₂ R (a :: b :: rest) bs ∧ P bs) ↔
      ∃ a', R a a' ∧ ∃ b', R b b' ∧ ∃ rest', List.Forall₂ R rest rest' ∧
        P (a' :: b' :: rest') := by
  constructor
  · rintro ⟨_, _ | ⟨ha, _ | ⟨hb, hrest⟩⟩, hP⟩
    exact ⟨_, ha, _, hb, _, hrest, hP⟩
  · rintro ⟨a', ha, b', hb, rest', hrest, hP⟩
    exact ⟨_, .cons ha (.cons hb hrest), hP⟩

/-- When each item is related to something, the list is related to a list item by item. -/
lemma exists_forall₂_of_forall {α β : Type} {R : α → β → Prop} {as : List α}
    (h : ∀ a ∈ as, ∃ b, R a b) : ∃ bs, List.Forall₂ R as bs := by
  induction as with
  | nil => exact ⟨[], .nil⟩
  | cons a as ih =>
    obtain ⟨b, hb⟩ := h a List.mem_cons_self
    obtain ⟨bs, hbs⟩ := ih fun t ht => h t (List.mem_cons_of_mem a ht)
    exact ⟨b :: bs, .cons hb hbs⟩

/-- A property of the items of the first list follows if it does from their being related. -/
lemma forall_mem_left_of_forall₂ {α β : Type} {R : α → β → Prop} {P : α → Prop} {as : List α}
    {bs : List β} (h : List.Forall₂ R as bs) (hP : ∀ a b, R a b → P a) : ∀ a ∈ as, P a := by
  intro a ha
  obtain ⟨b, -, hab⟩ := exists_mem_of_forall₂ h ha
  exact hP a b hab

/-- So does one of the items of the second list. -/
lemma forall_mem_right_of_forall₂ {α β : Type} {R : α → β → Prop} {P : β → Prop} {as : List α}
    {bs : List β} (h : List.Forall₂ R as bs) (hP : ∀ a b, R a b → P b) : ∀ b ∈ bs, P b :=
  forall_mem_left_of_forall₂ h.flip fun b a hab => hP a b hab

/-- A function that agrees on related items takes related lists to the same list. -/
lemma map_eq_of_forall₂ {α β : Type} {R : α → α → Prop} {f : α → β}
    (hf : ∀ {a b : α}, R a b → f a = f b) {as bs : List α} (h : List.Forall₂ R as bs) :
    as.map f = bs.map f := by
  rw [← List.forall₂_eq_eq_eq, List.forall₂_map_left_iff, List.forall₂_map_right_iff]
  exact h.imp fun _ _ hab => hf hab

/-- When each item is related to something with a property, the list is related to a list of items
with this property. -/
lemma exists_forall₂_of_forall_and {α β : Type} {R : α → β → Prop} {P : β → Prop} {as : List α}
    (h : ∀ a ∈ as, ∃ b, R a b ∧ P b) : ∃ bs, List.Forall₂ R as bs ∧ ∀ b ∈ bs, P b := by
  obtain ⟨bs, hbs⟩ := exists_forall₂_of_forall h
  exact ⟨bs, hbs.imp fun _ _ hab => hab.1, forall_mem_right_of_forall₂ hbs fun _ _ hab => hab.2⟩

/-- A choice takes one term of every factor. -/
lemma mem_choices {fs c : List Expr} :
    c ∈ choices fs ↔ List.Forall₂ (fun t f => t ∈ f.terms .sum) c fs := by
  induction fs generalizing c with
  | nil =>
    rw [choices, List.mem_singleton]
    constructor
    · rintro rfl
      exact .nil
    · rintro ⟨⟩
      rfl
  | cons f fs ih =>
    simp only [choices, List.mem_flatMap, List.mem_map]
    constructor
    · rintro ⟨others, hothers, t, ht, rfl⟩
      exact .cons ht (ih.1 hothers)
    · rintro (_ | ⟨ht, hothers⟩)
      exact ⟨_, ih.2 hothers, _, ht, rfl⟩

/-- Where there are factors there is something to choose. -/
lemma ne_nil_of_mem_choices {fs c : List Expr} (hne : fs ≠ []) (hc : c ∈ choices fs) : c ≠ [] :=
  ne_nil_of_forall₂ (mem_choices.1 hc).flip hne

/-- What is chosen is a term of a factor. -/
lemma exists_of_mem_choices {fs c : List Expr} (hc : c ∈ choices fs) {t : Expr} (ht : t ∈ c) :
    ∃ f ∈ fs, t ∈ f.terms .sum :=
  exists_mem_of_forall₂ (mem_choices.1 hc) ht

/-- There is one choice for each combination of terms. -/
lemma length_choices (factors : List Expr) :
    (choices factors).length = (factors.map fun f => (f.terms .sum).length).prod := by
  induction factors with
  | nil => rfl
  | cons f fs ih =>
    rw [choices, List.length_flatMap, List.map_cons, List.prod_cons, ← ih, Nat.mul_comm]
    simp only [List.length_map]
    induction choices fs with
    | nil => simp
    | cons _ rest ih =>
      rw [List.map_cons, List.sum_cons, List.length_cons, ih, Nat.add_mul, Nat.one_mul,
        Nat.add_comm]

/-- There is at least one choice. -/
lemma choices_ne_nil (fs : List Expr) : choices fs ≠ [] := by
  rw [← List.length_pos_iff, length_choices]
  refine List.prod_pos ?_
  intro n hn
  obtain ⟨f, -, rfl⟩ := List.mem_map.1 hn
  exact List.length_pos_iff.2 (terms_ne_nil .sum f)

/-! ### Folded constants -/

/-- The constants are the numbers in their place. -/
lemma constant?_eq_some_iff {e : Expr} {n : Number} : e.constant? = some n ↔ e = ofNumber n := by
  constructor
  · intro h
    cases e <;> simp only [constant?, Option.some.injEq, reduceCtorEq] at h
    all_goals rw [← h, ofNumber]
  · rintro rfl
    exact constant?_ofNumber n

/-- A property of numbers that an operation keeps holds of the result on some numbers. -/
lemma foldNumbers_induction {op : AssocOp} {P : Number → Prop}
    (hop : ∀ n m k, op.apply n m = .ok k → P n → P m → P k) {ns : List Number}
    (hns : ∀ n ∈ ns, P n) {k : Number} (h : foldNumbers op ns = .ok (some k)) : P k := by
  cases ns with
  | nil => simp [foldNumbers] at h
  | cons first rest =>
    rw [foldNumbers, Outcome.map_eq_ok_iff] at h
    obtain ⟨k', hk, hk'⟩ := h
    obtain rfl := Option.some.inj hk'
    have hfirst := hns first List.mem_cons_self
    have hrest : ∀ n ∈ rest, P n := fun n hn => hns n (List.mem_cons_of_mem first hn)
    clear hns
    induction rest generalizing first with
    | nil => exact (Outcome.pure_eq_ok_iff.1 hk) ▸ hfirst
    | cons m rest ih =>
      rw [List.foldlM_cons, Outcome.bind_eq_ok_iff] at hk
      obtain ⟨n, hn, hk⟩ := hk
      exact ih n hk (hop first m n hn hfirst (hrest m List.mem_cons_self))
        fun t ht => hrest t (List.mem_cons_of_mem m ht)

/-- Some numbers have no result of an operation only if there are none. -/
lemma foldNumbers_eq_none_iff {op : AssocOp} {ns : List Number} :
    foldNumbers op ns = .ok none ↔ ns = [] := by
  cases ns with
  | nil => simp [foldNumbers]
  | cons n ns => simp [foldNumbers, Outcome.map_eq_ok_iff]

/-- The terms that are left when constants have been folded into one: this constant, unless it can
be left out, and the other terms. -/
def foldedTerms (op : AssocOp) (constant : Option Number) (terms : List Expr) : List Expr :=
  let others := terms.filter fun e => !e.isConstant
  ((if !others.isEmpty && constant.any op.isUnit then none else constant).map ofNumber).toList ++
    others

/-- Folding gathers the terms that are left. -/
lemma gatherFolded_eq_ok_iff {op : AssocOp} {terms : List Expr} {r : Expr} :
    gatherFolded op terms = .ok r ↔
      ∃ constant, foldNumbers op (terms.filterMap constant?) = .ok constant ∧
        gather op (foldedTerms op constant terms) = r := by
  unfold gatherFolded
  rw [Outcome.bind_eq_ok_iff]
  simp only [foldedTerms, Outcome.pure_eq_ok_iff]

/-- Of terms that exist some are left. -/
lemma foldedTerms_ne_nil {op : AssocOp} {constant : Option Number} {terms : List Expr}
    (hne : terms ≠ []) (h : foldNumbers op (terms.filterMap constant?) = .ok constant) :
    foldedTerms op constant terms ≠ [] := by
  intro hnil
  simp only [foldedTerms, List.append_eq_nil_iff] at hnil
  obtain ⟨hconstant, hothers⟩ := hnil
  simp only [hothers, List.isEmpty_nil, Bool.not_true, Bool.false_and, Bool.false_eq_true,
    if_false, Option.toList_eq_nil_iff, Option.map_eq_none_iff] at hconstant
  rw [hconstant, foldNumbers_eq_none_iff, List.filterMap_eq_nil_iff] at h
  obtain ⟨t, terms, rfl⟩ := List.exists_cons_of_ne_nil hne
  have hconst : t.isConstant = true := by
    simpa using List.filter_eq_nil_iff.1 hothers t List.mem_cons_self
  rw [← isSome_constant?, h t List.mem_cons_self] at hconst
  simp at hconst

/-- What is left is the folded constant or a term. -/
lemma mem_foldedTerms {op : AssocOp} {constant : Option Number} {terms : List Expr} {t : Expr}
    (h : t ∈ foldedTerms op constant terms) :
    (∃ n, constant = some n ∧ t = ofNumber n) ∨ t ∈ terms ∧ t.isConstant = false := by
  unfold foldedTerms at h
  rw [List.mem_append] at h
  rcases h with h | h
  · left
    split at h
    · simp at h
    · rw [Option.mem_toList, Option.map_eq_some_iff] at h
      obtain ⟨n, hn, rfl⟩ := h
      exact ⟨n, hn, rfl⟩
  · right
    simpa using List.mem_filter.1 h

namespace Hereditary

variable {Q : Expr → Prop} (hQ : Hereditary Q)

include hQ

/-! ### Gathering and merging -/

/-- A node has the property if and only if its terms do. -/
lemma ofTerms (op : AssocOp) {es : List Expr} (hne : es ≠ []) :
    Q (ofTerms op es) ↔ ∀ e ∈ es, Q e := by
  match es, hne with
  | [e], _ => simp [Expr.ofTerms]
  | a :: b :: rest, _ => exact hQ.nary op a b rest

/-- An expression has the property if and only if its terms do. -/
lemma terms (op : AssocOp) (e : Expr) : (∀ t ∈ e.terms op, Q t) ↔ Q e := by
  rw [← hQ.ofTerms op (terms_ne_nil op e), ofTerms_terms]

/-- Merged terms have the property if and only if the operands do. -/
lemma merged (op : AssocOp) (es : List Expr) :
    (∀ t ∈ merged op es, Q t) ↔ ∀ e ∈ es, Q e := by
  constructor
  · intro h e he
    exact (hQ.terms op e).1 fun t ht => h t (mem_merged.2 ⟨e, he, ht⟩)
  · intro h t ht
    obtain ⟨e, he, ht⟩ := mem_merged.1 ht
    exact (hQ.terms op e).2 (h e he) t ht

/-- Gathered terms have the property if the terms do. -/
lemma gather (op : AssocOp) {es : List Expr} (hne : es ≠ []) (h : ∀ e ∈ es, Q e) :
    Q (gather op es) := by
  unfold Expr.gather
  by_cases hall : (es.filter fun e => !e.isEmpty) = []
  · -- All terms are empty, so the property holds of the empty expression.
    obtain ⟨e, es, rfl⟩ := List.exists_cons_of_ne_nil hne
    have hempty : e.isEmpty = true := by
      simpa using List.filter_eq_nil_iff.1 hall e List.mem_cons_self
    have he := h e List.mem_cons_self
    rw [isEmpty_iff.1 hempty] at he
    rwa [hall]
  · exact (hQ.ofTerms op hall).2 fun e he => h e (List.mem_filter.1 he).1

/-- Joined operands have the property if and only if both operands do. -/
lemma join (op : AssocOp) (a b : Expr) : Q (join op a b) ↔ Q a ∧ Q b := by
  rw [join_eq_ofTerms_merged, hQ.ofTerms op (merged_ne_nil op (List.cons_ne_nil a [b])),
    hQ.merged, List.forall_mem_cons, List.forall_mem_singleton]

/-! ### Distributing -/

/-- A distributed product has the property if its factors do. -/
lemma distribute {es : List Expr} (hne : es ≠ []) (h : ∀ e ∈ es, Q e) : Q (distribute es) := by
  refine hQ.gather .sum (by simpa using choices_ne_nil es) ?_
  intro t ht
  obtain ⟨c, hc, rfl⟩ := List.mem_map.1 ht
  have hcne := merged_ne_nil .product (ne_nil_of_mem_choices hne hc)
  refine hQ.gather .product hcne ((hQ.merged .product c).2 ?_)
  intro u hu
  obtain ⟨f, hf, huf⟩ := exists_of_mem_choices hc hu
  exact (hQ.terms .sum f).2 (h f hf) u huf

/-! ### Folding constants -/

/-- The result of an operation on constants that have the property has it as well. -/
lemma apply {op : AssocOp} {n m k : Number} (h : op.apply n m = .ok k) (hn : Q (ofNumber n))
    (hm : Q (ofNumber m)) : Q (ofNumber k) := by
  cases k with
  | integer k => exact hQ.integer k
  | decimal k =>
    cases n with
    | decimal d => exact hQ.decimal d k hn
    | integer n =>
      cases m with
      | decimal d => exact hQ.decimal d k hm
      | integer m => cases op <;> simp [AssocOp.apply, Number.add, Number.mul] at h

/-- Operands with their constants folded have the property if the operands do. -/
lemma foldTerms {op : AssocOp} {es : List Expr} (hne : es ≠ []) (h : ∀ e ∈ es, Q e) {r : Expr}
    (hr : foldTerms op es = .ok r) : Q r := by
  rw [Expr.foldTerms] at hr
  split at hr
  · obtain rfl := Except.ok.inj hr
    exact hQ.integer 0
  · obtain ⟨constant, hconstant, rfl⟩ := gatherFolded_eq_ok_iff.1 hr
    have hterms := (hQ.merged op es).2 h
    refine hQ.gather op (foldedTerms_ne_nil (merged_ne_nil op hne) hconstant) ?_
    intro t ht
    rcases mem_foldedTerms ht with ⟨n, rfl, rfl⟩ | ht
    · refine foldNumbers_induction (P := fun n => Q (ofNumber n)) (fun _ _ _ => hQ.apply) ?_
        hconstant
      intro m hm
      obtain ⟨t, ht, htm⟩ := List.mem_filterMap.1 hm
      exact constant?_eq_some_iff.1 htm ▸ hterms t ht
    · exact hterms t ht.1

end Hereditary

/-! ### Kinds of nodes and division depth -/

/-- A condition on kinds allows arithmetic if it allows what is brought into a tree when terms are
rearranged. -/
structure AllowsArithmetic (p : NodeKind → Bool) : Prop where
  integer : p .integer = true
  negation : p .negation = true
  assoc (op : AssocOp) : p (.assoc op) = true

/-- Whether an expression consists of given kinds and has at most a given division depth. -/
def Within (p : NodeKind → Bool) (depth : ℕ) (e : Expr) : Prop :=
  e.consistsOf p = true ∧ e.divisionDepth ≤ depth

variable {p : NodeKind → Bool} {depth : ℕ}

/-- The division depth of a node of an associative operation is the greatest one of its terms. -/
lemma divisionDepth_nary_le_iff {op : AssocOp} {a b : Expr} {rest : List Expr} :
    (nary op a b rest).divisionDepth ≤ depth ↔
      ∀ t ∈ a :: b :: rest, t.divisionDepth ≤ depth := by
  rw [divisionDepth, Nat.max_le, Nat.max_le, divisionDepthAll_le_iff, List.forall_mem_cons,
    List.forall_mem_cons]

/-- The right side of a division, like the left one, has a lesser division depth. -/
lemma within_division {l r : Expr} :
    Within p (depth + 1) (division l r) ↔
      p .division = true ∧ Within p depth l ∧ Within p depth r := by
  simp only [Within, consistsOf, divisionDepth, Bool.and_eq_true, Nat.add_le_add_iff_right,
    Nat.max_le]
  tauto

/-- No division has division depth zero. -/
lemma not_within_zero_division {l r : Expr} : ¬ Within p 0 (division l r) := by
  simp [Within, divisionDepth]

/-- Parentheses neither add nor hide a division. -/
lemma within_of_parentheses {e : Expr} (h : Within p depth (parentheses e)) :
    Within p depth e := by
  unfold Within at h
  rw [consistsOf, Bool.and_eq_true] at h
  exact ⟨h.1.2, h.2⟩

/-- Consisting of kinds that allow arithmetic within a division depth is hereditary. -/
lemma hereditary_within (hp : AllowsArithmetic p) (depth : ℕ) : Hereditary (Within p depth) where
  integer n := ⟨hp.integer, Nat.zero_le _⟩
  decimal _ _ h := h
  negation e := by simp [Within, consistsOf, hp.negation, divisionDepth]
  nary op a b rest := by
    simp only [Within, consistsOf_nary, hp.assoc, true_and, divisionDepth_nary_le_iff]
    exact ⟨fun h t ht => ⟨h.1 t ht, h.2 t ht⟩, fun h => ⟨fun t ht => (h t ht).1,
      fun t ht => (h t ht).2⟩⟩

/-- Consisting of kinds that allow arithmetic is hereditary. -/
lemma hereditary_consistsOf (hp : AllowsArithmetic p) :
    Hereditary fun e => e.consistsOf p = true where
  integer _ := hp.integer
  decimal _ _ h := h
  negation e := by rw [consistsOf, hp.negation, Bool.true_and]
  nary op a b rest := by rw [consistsOf_nary, hp.assoc, eq_self_iff_true, true_and]

/-- A division, if it is allowed, consists of given kinds if its sides do. -/
lemma consistsOf_division_iff (hp : p .division = true) {l r : Expr} :
    (division l r).consistsOf p = true ↔ l.consistsOf p = true ∧ r.consistsOf p = true := by
  rw [consistsOf, hp, Bool.true_and, Bool.and_eq_true]

/-- Parentheses, if they are allowed, consist of given kinds if what is in them does. -/
lemma consistsOf_parentheses_iff (hp : p .parentheses = true) {e : Expr} :
    (parentheses e).consistsOf p = true ↔ e.consistsOf p = true := by
  rw [consistsOf, hp, Bool.true_and]

/-! ### Exact expressions and polynomials -/

/-- Expressions without anything empty allow arithmetic. -/
lemma allowsArithmetic_emptyFree : AllowsArithmetic fun kind => kind != .empty :=
  ⟨rfl, rfl, fun _ => rfl⟩

/-- Exact expressions allow arithmetic. -/
lemma allowsArithmetic_exact :
    AllowsArithmetic fun kind => kind != .decimal && kind != .empty :=
  ⟨rfl, rfl, fun _ => rfl⟩

/-- Polynomials allow arithmetic. -/
lemma allowsArithmetic_polynomial :
    AllowsArithmetic fun kind => kind != .decimal && kind != .empty && kind != .division :=
  ⟨rfl, rfl, fun _ => rfl⟩

/-- To have no decimal is hereditary. -/
lemma hereditary_isDecimalFree : Hereditary fun e => e.isDecimalFree = true :=
  hereditary_consistsOf ⟨rfl, rfl, fun _ => rfl⟩

/-- To have nothing empty in it is hereditary. -/
lemma hereditary_isEmptyFree : Hereditary fun e => e.isEmptyFree = true :=
  hereditary_consistsOf allowsArithmetic_emptyFree

/-- To be exact is hereditary. -/
lemma hereditary_isExact : Hereditary fun e => e.isExact = true :=
  hereditary_consistsOf allowsArithmetic_exact

/-- To be a polynomial is hereditary. -/
lemma hereditary_isPolynomial : Hereditary fun e => e.isPolynomial = true :=
  hereditary_consistsOf allowsArithmetic_polynomial

/-- A division is exact if its sides are. -/
lemma isExact_division_iff {l r : Expr} :
    (division l r).isExact = true ↔ l.isExact = true ∧ r.isExact = true :=
  consistsOf_division_iff rfl

/-- A division has no decimal if its sides have none. -/
lemma isDecimalFree_division_iff {l r : Expr} :
    (division l r).isDecimalFree = true ↔ l.isDecimalFree = true ∧ r.isDecimalFree = true :=
  consistsOf_division_iff rfl

/-- A division has nothing empty in it if its sides have not. -/
lemma isEmptyFree_division_iff {l r : Expr} :
    (division l r).isEmptyFree = true ↔ l.isEmptyFree = true ∧ r.isEmptyFree = true :=
  consistsOf_division_iff rfl

/-- A division is no polynomial. -/
lemma not_isPolynomial_division {l r : Expr} : ¬ (division l r).isPolynomial = true :=
  Bool.false_ne_true

/-- A polynomial is no division. -/
lemma isDivision_of_isPolynomial {e : Expr} (h : e.isPolynomial = true) : e.isDivision = false := by
  cases e with
  | division l r => exact absurd h not_isPolynomial_division
  | _ => rfl

/-- Parentheses around an exact expression are exact. -/
lemma isExact_parentheses_iff {e : Expr} :
    (parentheses e).isExact = true ↔ e.isExact = true :=
  consistsOf_parentheses_iff rfl

/-- Parentheses have no decimal if there is none in them. -/
lemma isDecimalFree_parentheses_iff {e : Expr} :
    (parentheses e).isDecimalFree = true ↔ e.isDecimalFree = true :=
  consistsOf_parentheses_iff rfl

/-- Parentheses have nothing empty in them if there is nothing empty in what they stand around. -/
lemma isEmptyFree_parentheses_iff {e : Expr} :
    (parentheses e).isEmptyFree = true ↔ e.isEmptyFree = true :=
  consistsOf_parentheses_iff rfl

/-- Parentheses around a polynomial are a polynomial. -/
lemma isPolynomial_parentheses_iff {e : Expr} :
    (parentheses e).isPolynomial = true ↔ e.isPolynomial = true :=
  consistsOf_parentheses_iff rfl

/-- What has nothing empty in it is not empty. -/
lemma isEmpty_of_isEmptyFree {e : Expr} (h : e.isEmptyFree = true) : e.isEmpty = false := by
  cases e with
  | empty => exact Bool.noConfusion h
  | _ => rfl

/-- What is exact is not empty. -/
lemma isEmpty_of_isExact {e : Expr} (h : e.isExact = true) : e.isEmpty = false :=
  isEmpty_of_isEmptyFree (isEmptyFree_of_isExact h)

/-- Gathering exact expressions builds one node. -/
lemma gather_of_isExact (op : AssocOp) {es : List Expr} (h : ∀ e ∈ es, e.isExact = true) :
    gather op es = ofTerms op es :=
  gather_eq_ofTerms op fun e he => isEmpty_of_isExact (h e he)

end TermAlgebra.Expr
