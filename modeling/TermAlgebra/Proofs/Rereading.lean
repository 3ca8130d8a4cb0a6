import Mathlib.Tactic
import TermAlgebra.Proofs.Alike
import TermAlgebra.Proofs.Reading

/-!
# Reading simplified formulas back

The formula of a simplified polynomial is read as a tree that is simplified to it again.

The tree differs from the polynomial in its signs, since no constant is negative in it, but the two
are interchangeable (`readsLike_of_isPolynomial`).  Neither has parentheses or divisions, so that a
step has nothing to flatten or resolve in them, and leads to the same tree from both
(`stepWith_of_interchangeable`).  A simplified polynomial is legible, because it is folded and its
variables are among those that it has been simplified from (`preserved_named`, `Folded.legible`).
It is left by a step as it is, hence the tree that its formula is read as comes to it in one step
(`simplify_parse_formula`).
-/

namespace TermAlgebra.Expr

/-! ### The trees of a polynomial -/

/-- Whether the trees of an expression are interchangeable with it, the one after a minus sign
together with the sign. -/
structure ReadsLike (e : Expr) : Prop where
  text : Interchangeable (reading e).text e
  subtracted : ∀ u ∈ (reading e).subtracted, Interchangeable (negation u) e

/-- Then so is the tree as a later term of a sum. -/
lemma ReadsLike.addend {e : Expr} (h : ReadsLike e) : Interchangeable (reading e).addend e := by
  unfold Reading.addend
  cases hsubtracted : (reading e).subtracted with
  | none => exact h.text
  | some u => exact h.subtracted u hsubtracted

/-- The trees of an integer are interchangeable with it. -/
lemma readsLike_integer (n : ℤ) : ReadsLike (integer n) := by
  cases hnegated : (integer n).negatedConstant? with
  | none =>
    constructor <;> rw [reading, constantReading, hnegated]
    · exact interchangeable_self rfl
    · exact fun u hu => absurd hu (Option.not_mem_none u)
  | some c =>
    rcases negatedConstant?_eq_some hnegated with ⟨k, hn, rfl⟩ | ⟨d, hd⟩
    · have hsign := interchangeable_negation_integer k
      constructor <;> rw [reading, constantReading, hnegated]
      · exact hn ▸ hsign
      · rintro _ ⟨⟩
        exact hn ▸ hsign
    · exact Expr.noConfusion hd

/-- The trees of a product are interchangeable with it if those of its factors are. -/
lemma readsLike_product {a b : Expr} {rest : List Expr} (h : ∀ t ∈ a :: b :: rest, ReadsLike t) :
    ReadsLike (product a b rest) := by
  obtain ⟨ha, hothers⟩ := List.forall_mem_cons.1 h
  have htrees : List.Forall₂ Interchangeable
      ((reading b).text :: rest.map fun t => (reading t).text) (b :: rest) := by
    rw [← List.map_cons (f := fun t => (reading t).text), List.forall₂_map_left_iff,
      List.forall₂_same]
    exact fun t ht => (hothers t ht).text
  have hleft := forall_mem_left_of_forall₂ htrees fun _ _ htt' => htt'.left
  -- A first factor and the trees of the other ones make a product like the original one.
  have hproduct : ∀ c : Expr, c.isPolynomial = true →
      Interchangeable (ofTerms .product (c :: (reading b).text :: rest.map fun t =>
        (reading t).text)) (ofTerms .product (c :: b :: rest)) :=
    fun c hc => .ofTerms .product (List.cons_ne_nil _ _) (.cons (interchangeable_self hc) htrees)
  constructor
  · rw [reading_product, productReading]
    dsimp only
    split
    · next hminus =>
      obtain rfl : a = integer (-1) := by
        cases a <;> first | exact Bool.noConfusion hminus | simpa [isMinusOne] using hminus
      exact (interchangeable_negation_factor hleft).trans (hproduct (integer (-1)) rfl)
    · exact .ofTerms .product (List.cons_ne_nil _ _) (.cons ha.text htrees)
  · rw [reading_product, productReading]
    intro u hu
    obtain ⟨c, hc, rfl⟩ := Option.map_eq_some_iff.1 hu
    obtain ⟨n, rfl, rfl⟩ : ∃ n : ℕ, a = integer (-n) ∧ c = integer n := by
      refine (negatedConstant?_eq_some hc).resolve_right ?_
      rintro ⟨d, rfl⟩
      exact Bool.noConfusion ha.text.right
    split
    · next hone =>
      have hn : (n : ℤ) = 1 := Option.some.inj hone
      have hsign := interchangeable_negation_product (List.cons_ne_nil _ _) hleft
      exact hn ▸ hsign.trans (hproduct (integer (-1)) rfl)
    · have hfactors : ∀ u ∈ integer n :: (reading b).text :: rest.map fun t => (reading t).text,
          u.isPolynomial = true := List.forall_mem_cons.2 ⟨rfl, hleft⟩
      have hsign := interchangeable_negation_product (List.cons_ne_nil _ _) hfactors
      have hintegers := interchangeable_integers (-1) n hleft
      rw [neg_one_mul] at hintegers
      exact (hsign.trans hintegers).trans (hproduct (integer (-n)) rfl)

/-- The trees of a polynomial are interchangeable with it. -/
theorem readsLike_of_isPolynomial {e : Expr} (h : e.isPolynomial = true) : ReadsLike e := by
  induction e using Expr.induction with
  | empty => exact Bool.noConfusion h
  | decimal d => exact Bool.noConfusion h
  | integer n => exact readsLike_integer n
  | var s => exact ⟨interchangeable_self rfl, nofun⟩
  | negation e ih =>
    have hnegation := (ih ((hereditary_isPolynomial.negation e).1 h)).text.negation
    refine ⟨hnegation, ?_⟩
    rintro _ ⟨⟩
    exact hnegation
  | nary op a b rest ih =>
    have hterms := (hereditary_isPolynomial.nary op a b rest).1 h
    have hreads : ∀ t ∈ a :: b :: rest, ReadsLike t := fun t ht => ih t ht (hterms t ht)
    cases op with
    | product => exact readsLike_product hreads
    | sum =>
      obtain ⟨ha, hothers⟩ := List.forall_mem_cons.1 hreads
      have htrees : List.Forall₂ Interchangeable
          ((b :: rest).map fun t => (reading t).addend) (b :: rest) := by
        rw [List.forall₂_map_left_iff, List.forall₂_same]
        exact fun t ht => (hothers t ht).addend
      refine ⟨?_, ?_⟩ <;> rw [reading_sum]
      · exact .ofTerms .sum (List.cons_ne_nil _ _) (.cons ha.text htrees)
      · exact nofun
  | division l r _ _ => exact absurd h not_isPolynomial_division
  | parentheses e ih =>
    have he := isPolynomial_parentheses_iff.1 h
    exact ⟨(ih he).text.trans (interchangeable_parentheses he).symm, nofun⟩

/-! ### Steps of flat polynomials -/

section Steps

variable {side : Expr → Traced Expr}

/-- A flat polynomial has no divisions, and no parentheses around any. -/
lemma outerDivisions_of_flat {D : Expr → Expr → Prop} {e : Expr} (he : e.isPolynomial = true)
    (hflat : e.Flat) : e.OuterDivisions D := by
  induction e using Expr.induction with
  | empty => exact Bool.noConfusion he
  | decimal d => exact Bool.noConfusion he
  | integer n => trivial
  | var s => trivial
  | negation e ih =>
    exact ih ((hereditary_isPolynomial.negation e).1 he) (flat_negation_iff.1 hflat)
  | nary op a b rest ih =>
    have hterms := (hereditary_isPolynomial.nary op a b rest).1 he
    refine ((hereditary_outerDivisions D).nary op a b rest).2 fun t ht => ?_
    exact ih t ht (hterms t ht) (flat_nary_iff.1 hflat t ht).1
  | division l r _ _ => exact absurd he not_isPolynomial_division
  | parentheses e _ => exact absurd hflat.flatNode not_false

/-- A step of a flat polynomial chooses between its folded form and that of its collected
expansion. -/
lemma result_stepWith_of_flat {e c : Expr} (he : e.isPolynomial = true) (hflat : e.Flat)
    (hcollect : collect e.expand = .ok c) (hc : c.isExact = true) :
    (stepWith side e).result = .ok (simplestOf e.foldedForm [c.foldedForm]) := by
  have hexact := isExact_of_isPolynomial he
  have hdivision := isDivision_of_isPolynomial he
  have hfolded := (folded_foldedForm hexact).simplestOf (folded_foldedForm hc)
  have hsettled : e.OuterDivisions (SettledDivision side) := outerDivisions_of_flat he hflat
  have hresolve := resolveDivisions_of_settled hsettled
  rw [← congrArg (resolveDivisions side) hflat.flatten_eq] at hresolve
  refine Traced.yields_true_iff.1 ((yields_stepWith_iff_of_flat hresolve hexact).2 ?_)
  rw [if_neg (by rw [hdivision]; exact Bool.false_ne_true)]
  exact ⟨e.foldedForm, c, c.foldedForm, foldConstants_eq_foldedForm hexact, hcollect,
    foldConstants_eq_foldedForm hc, trivial, hfolded.foldConstants_eq⟩

/-- Steps of interchangeable flat polynomials lead to the same tree. -/
theorem stepWith_of_interchangeable {e e' : Expr} (h : Interchangeable e e') (hflat : e.Flat)
    (hflat' : e'.Flat) : (stepWith side e).result = (stepWith side e').result := by
  obtain ⟨c, c', hc, hc', hsame⟩ := h.collectsAlike
  rw [result_stepWith_of_flat h.left hflat hc hsame.left,
    result_stepWith_of_flat h.right hflat' hc' hsame.right, h.foldedForm, hsame.foldedForm]

end Steps

/-! ### Names -/

/-- Whether a text is a letter and then letters and digits. -/
def IsName (s : String) : Prop :=
  ∃ c cs, s = String.ofList (c :: cs) ∧ c.isAlpha = true ∧ ∀ d ∈ cs, Token.isNamePart d = true

/-- Whether the variables of an expression are called by names. -/
def Named (e : Expr) : Prop :=
  ∀ s, var s ∈ e.parts → IsName s

/-- The variables of a node are those of its terms. -/
lemma named_nary {op : AssocOp} {a b : Expr} {rest : List Expr} :
    Named (nary op a b rest) ↔ ∀ t ∈ a :: b :: rest, Named t := by
  unfold Named
  simp only [mem_parts_nary, reduceCtorEq, false_or]
  constructor
  · exact fun h t ht s hs => h s ⟨t, ht, hs⟩
  · rintro h s ⟨t, ht, hs⟩
    exact h t ht s hs

/-- Those of a division are those of its sides. -/
lemma named_division {l r : Expr} : Named (division l r) ↔ Named l ∧ Named r := by
  simp only [Named, parts, List.mem_cons, List.mem_append, reduceCtorEq, false_or]
  exact ⟨fun h => ⟨fun s hs => h s (Or.inl hs), fun s hs => h s (Or.inr hs)⟩,
    fun h s hs => hs.elim (h.1 s) (h.2 s)⟩

/-- A constant has no variables. -/
lemma named_of_isConstant {e : Expr} (h : e.isConstant = true) : Named e := by
  cases e <;> first | exact Bool.noConfusion h | simp [Named, parts]

/-- Rewriting brings in no variables. -/
lemma preserved_named : Preserved fun _ : Unit => Named where
  hereditary _ :=
    { integer := fun n => named_of_isConstant rfl
      decimal := fun _ _ _ => named_of_isConstant rfl
      negation := fun e => by simp [Named, parts]
      nary := fun _ _ _ _ => named_nary }
  division hlr hl hr := by
    rw [named_division] at hlr ⊢
    exact ⟨hl () hlr.1, hr () hlr.2⟩
  parentheses h := by simpa [Named, parts] using h
  quotient hq hlr := by
    obtain ⟨quotient, hquotient, rfl⟩ := Outcome.map_eq_ok_iff.1 hq
    cases quotient with
    | none => exact hlr
    | some c =>
      rcases reduceQuotient?_eq_some hquotient with ⟨n, rfl⟩ | ⟨d, d', rfl, -⟩
      · exact named_of_isConstant rfl
      · exact named_of_isConstant rfl

/-! ### Simplified polynomials -/

/-- An exact expression without divisions is a polynomial. -/
lemma isPolynomial_of_parts {e : Expr} (he : e.isExact = true)
    (h : ∀ t ∈ e.parts, t.isDivision = false) : e.isPolynomial = true := by
  induction e using Expr.induction with
  | empty => exact Bool.noConfusion he
  | decimal d => exact Bool.noConfusion he
  | integer n => rfl
  | var s => rfl
  | negation e ih =>
    have hparts : ∀ t ∈ e.parts, t.isDivision = false :=
      fun t ht => h t (List.mem_cons_of_mem _ ht)
    exact (hereditary_isPolynomial.negation e).2 (ih ((hereditary_isExact.negation e).1 he) hparts)
  | nary op a b rest ih =>
    have hterms := (hereditary_isExact.nary op a b rest).1 he
    refine (hereditary_isPolynomial.nary op a b rest).2 fun t ht => ?_
    exact ih t ht (hterms t ht) fun u hu => h u (mem_parts_nary.2 (Or.inr ⟨t, ht, hu⟩))
  | division l r _ _ => exact Bool.noConfusion (h _ List.mem_cons_self)
  | parentheses e ih =>
    have hparts : ∀ t ∈ e.parts, t.isDivision = false :=
      fun t ht => h t (List.mem_cons_of_mem _ ht)
    exact isPolynomial_parentheses_iff.2 (ih (isExact_parentheses_iff.1 he) hparts)

namespace Folded

variable {e : Expr}

/-- A folded expression is flat. -/
lemma flat (h : Folded e) : e.Flat := by
  intro t ht
  have hnormal := (h.of_mem_parts ht).normalNode
  cases t with
  | nary op a b rest => exact hnormal.1
  | empty => exact hnormal
  | parentheses e => exact hnormal
  | _ => trivial

/-- A folded expression that can be written is readable if its variables are called by names. -/
lemma readable (h : Folded e) (hnames : Named e) (hwritable : e.isWritable = true) :
    Readable e := by
  induction h with
  | integer n => exact .integer n ((Numeral.fits_iff_length_digits_le n).1 hwritable)
  | var s =>
    obtain ⟨c, cs, rfl, hc, hcs⟩ := hnames s List.mem_cons_self
    exact .var c cs hc hcs
  | nary op _ _ _ ih =>
    rw [isWritable_nary_iff] at hwritable
    rw [named_nary] at hnames
    exact .nary op fun t ht => ih t ht (hnames t ht) (hwritable t ht)
  | division _ _ _ hl hr =>
    rw [Expr.isWritable, Bool.and_eq_true] at hwritable
    rw [named_division] at hnames
    exact .division (hl hnames.1 hwritable.1) (hr hnames.2 hwritable.2)

/-- A folded polynomial is then legible. -/
lemma legible (h : Folded e) (hnames : Named e) (hwritable : e.isWritable = true)
    (he : e.isPolynomial = true) : Legible e := by
  refine ⟨h.readable hnames hwritable, h.flat, fun t ht => ?_⟩
  have hfolded := h.of_mem_parts ht
  have hpolynomial := consistsOf_of_mem_parts he ht
  cases hfolded with
  | nary op _ _ htidy =>
    cases op with
    | sum => trivial
    | product =>
      intro u hu
      have hterms := (hereditary_isPolynomial.nary .product _ _ _).1 hpolynomial
      refine ⟨isDivision_of_isPolynomial (hterms u (List.mem_cons_of_mem _ hu)), ?_⟩
      have hconstant := htidy.2 u hu
      cases u <;> first | rfl | exact Bool.noConfusion hconstant
  | _ => trivial

end Folded

/-- What a text is read as is flat. -/
lemma flat_of_parse {text : String} {t : Expr} (h : parse text = .ok t) (ht : t.isExact = true) :
    t.Flat := by
  obtain ⟨tokens, -, hassemble⟩ := Outcome.bind_eq_ok_iff.1 h
  rcases Assembly.flat_of_assemble hassemble with rfl | hflat
  · exact Bool.noConfusion ht
  · exact hflat

/-- If no run is broken off and no division remains, the formula of a simplified expression is read
as a tree that is simplified to this expression. -/
theorem simplify_parse_formula {e r : Expr} (he : e.isExact = true) (hnames : Named e)
    (h : e.simplifyTraced.Settles r) (hr : ∀ t ∈ r.parts, t.isDivision = false) :
    ∃ text t, r.formula? = .ok text ∧ parse text = .ok t ∧ t.simplify = .ok r := by
  have hrewrites := rewrites_of_yields_simplifyTraced h
  rw [simplifyTraced_eq_runWith] at h
  have hrests := restsAt_of_runWith (settlesBelow_simplifyTraced e.divisionDepth)
    (fun _ _ => rewrites_of_yields_simplifyTraced) he le_rfl h
  have hpolynomial := isPolynomial_of_parts hrests.folded.isExact hr
  have hnamed : Named r := hrewrites.preserves preserved_named (i := ()) hnames
  have hlegible := hrests.folded.legible hnamed hrests.isWritable hpolynomial
  obtain ⟨hformula, hparse⟩ := parse_formula_eq hlegible
  have hlike := (readsLike_of_isPolynomial hpolynomial).text
  have hflat := flat_of_parse hparse (isExact_of_isPolynomial hlike.left)
  refine ⟨r.formula, (reading r).text, hformula, hparse, ?_⟩
  unfold simplify
  rw [simplifyTraced_eq_runWith]
  refine result_runWith_of_step hrests.folded.isExact hrests.isWritable ?_ hrests.fixed
  rw [stepWith_of_interchangeable hlike hflat hrests.folded.flat, hrests.fixed]

/-- For instance a sum of negative terms, which is read as a sum of negations. -/
theorem simplify_parse_formula_difference :
    formula? (sum (integer (-3)) (product (integer (-2)) (var "x") [])
        [product (integer (-1)) (var "y1") []]) = .ok "-3 - 2 * x - y1" ∧
      parse "-3 - 2 * x - y1" = .ok (sum (negation (integer 3))
        (negation (product (integer 2) (var "x") [])) [negation (var "y1")]) ∧
      (sum (negation (integer 3)) (negation (product (integer 2) (var "x") []))
        [negation (var "y1")]).simplify = .ok (sum (integer (-3))
          (product (integer (-2)) (var "x") []) [product (integer (-1)) (var "y1") []]) := by
  have hnames : Named (sum (product (var "x") (integer (-2)) []) (negation (var "y1"))
      [integer (-3)]) := by
    intro s hs
    simp only [parts, partsAll, List.mem_cons, List.mem_append, List.not_mem_nil, reduceCtorEq,
      var.injEq, or_false, false_or] at hs
    rcases hs with rfl | rfl
    · exact ⟨'x', [], rfl, rfl, List.forall_mem_nil _⟩
    · exact ⟨'y', ['1'], rfl, rfl, List.forall_mem_singleton.2 rfl⟩
  have hsettles : (sum (product (var "x") (integer (-2)) []) (negation (var "y1"))
      [integer (-3)]).simplifyTraced.Settles (sum (integer (-3))
        (product (integer (-2)) (var "x") []) [product (integer (-1)) (var "y1") []]) :=
    ⟨eq_ok_of_returns rfl (by decide +kernel), by decide +kernel⟩
  obtain ⟨text, t, htext, hparse, hsimplify⟩ := simplify_parse_formula rfl hnames hsettles
    (by decide)
  have hformula : formula? (sum (integer (-3)) (product (integer (-2)) (var "x") [])
      [product (integer (-1)) (var "y1") []]) = .ok "-3 - 2 * x - y1" := by
    decide +kernel
  have hread : parse "-3 - 2 * x - y1" = .ok (sum (negation (integer 3))
      (negation (product (integer 2) (var "x") [])) [negation (var "y1")]) :=
    eq_ok_of_returns rfl (by decide +kernel)
  obtain rfl := Except.ok.inj (hformula.symm.trans htext)
  obtain rfl := Except.ok.inj (hread.symm.trans hparse)
  exact ⟨hformula, hread, hsimplify⟩

end TermAlgebra.Expr
