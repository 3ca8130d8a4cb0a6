import Mathlib.Tactic
import TermAlgebra.Expr.Formula
import TermAlgebra.Proofs.Meaning
import TermAlgebra.Proofs.Phrases
import TermAlgebra.Proofs.Runs

/-!
# Reading formulas back

The formula of an expression reads back as an expression of the same meaning.

A text denotes an expression at a level of the grammar if it is a phrase of that level for a tree
with the meaning of the expression (`Grammar.Denotes`).  There is one lemma for each way to put
texts together: signs, parentheses, and the four operators between two texts.  The formula of an
expression denotes it at the level of its topmost operator, and what is written after a minus sign
denotes the negated expression as a term (`Expr.Rendered`); this is kept by each kind of node
(`Expr.rendered_of_readable`).  So every expression of readable names and numbers reads
back with the same value wherever it has one (`Expr.parse_formula`).
-/

namespace TermAlgebra

open TermAlgebra.Expr (SameMeaning)

namespace Grammar

/-- Whether a text spells a phrase of a level that has the meaning of an expression. -/
def Denotes (level : Level) (text : String) (e : Expr) : Prop :=
  ∃ tokens tree, Token.Spells text.toList tokens ∧ Derives level tokens tree ∧ SameMeaning tree e

namespace Denotes

variable {level : Level} {s t : String} {e e' l r : Expr}

/-- A text denotes an expression if it is a phrase for a tree of the same meaning. -/
lemma iff_exists_phrase :
    Denotes level s e ↔ ∃ tree, Phrase level s tree ∧ SameMeaning tree e := by
  constructor
  · rintro ⟨tokens, tree, hspells, hderives, htree⟩
    exact ⟨tree, ⟨tokens, hspells, hderives⟩, htree⟩
  · rintro ⟨tree, ⟨tokens, hspells, hderives⟩, htree⟩
    exact ⟨tokens, tree, hspells, hderives, htree⟩

/-- A text that denotes an expression denotes all expressions of the same meaning. -/
lemma congr (h : Denotes level s e) (hmeaning : SameMeaning e e') : Denotes level s e' := by
  obtain ⟨tokens, tree, hspells, hderives, htree⟩ := h
  exact ⟨tokens, tree, hspells, hderives, htree.trans hmeaning⟩

/-- What denotes an expression at a level denotes it at every looser level. -/
lemma loosen {tighter : Level} (hlevel : level.precedence ≤ tighter.precedence)
    (h : Denotes tighter s e) : Denotes level s e := by
  obtain ⟨tree, hphrase, htree⟩ := iff_exists_phrase.1 h
  exact iff_exists_phrase.2 ⟨tree, hphrase.loosen hlevel, htree⟩

/-- An expression in parentheses is an operand. -/
lemma parenthesized (h : Denotes .expression s e) : Denotes .operand ("(" ++ s ++ ")") e := by
  obtain ⟨tree, hphrase, htree⟩ := iff_exists_phrase.1 h
  exact iff_exists_phrase.2 ⟨tree, hphrase.parenthesized, htree⟩

/-- A sign before a signed operand negates it. -/
lemma negated (h : Denotes .signed s e) : Denotes .signed ("-" ++ s) (.negation e) := by
  obtain ⟨tree, hphrase, htree⟩ := iff_exists_phrase.1 h
  exact iff_exists_phrase.2 ⟨_, hphrase.negated, htree.negation⟩

/-- A sign before a term negates it. -/
lemma negated_term (h : Denotes .term s e) : Denotes .term ("-" ++ s) (.negation e) := by
  obtain ⟨tokens, tree, hspells, hderives, htree⟩ := h
  obtain ⟨negated, hnegated, hmeaning⟩ := exists_derives_negation hderives
  refine ⟨_, negated, ?_, hnegated, hmeaning.trans htree.negation⟩
  simpa using hspells.mark (c := '-') rfl

/-- A term multiplied by a term. -/
lemma product (hl : Denotes .term s l) (hr : Denotes .term t r) :
    Denotes .term (s ++ " * " ++ t) (.join .product l r) := by
  obtain ⟨ts, tree, hs, hderives, hmeaning⟩ := hl
  obtain ⟨us, tree', ht, hderives', hmeaning'⟩ := hr
  obtain ⟨product, hproduct, hsame⟩ := exists_derives_product hderives hderives'
  refine ⟨_, product, ?_, hproduct, hsame.trans (hmeaning.join .product hmeaning')⟩
  simpa using hs.between ht (c := '*') rfl

/-- A term divided by a signed operand. -/
lemma quotient (hl : Denotes .term s l) (hr : Denotes .signed t r) :
    Denotes .term (s ++ " / " ++ t) (.division l r) := by
  obtain ⟨tree, hphrase, hmeaning⟩ := iff_exists_phrase.1 hl
  obtain ⟨tree', hphrase', hmeaning'⟩ := iff_exists_phrase.1 hr
  exact iff_exists_phrase.2 ⟨_, hphrase.dividedBy hphrase', hmeaning.division hmeaning'⟩

/-- An expression added to an expression. -/
lemma sum (hl : Denotes .expression s l) (hr : Denotes .expression t r) :
    Denotes .expression (s ++ (" + " ++ t)) (.join .sum l r) := by
  obtain ⟨ts, tree, hs, hderives, hmeaning⟩ := hl
  obtain ⟨us, tree', ht, hderives', hmeaning'⟩ := hr
  obtain ⟨sum, hsum, hsame⟩ := exists_derives_sum hderives hderives'
  refine ⟨_, sum, ?_, hsum, hsame.trans (hmeaning.join .sum hmeaning')⟩
  simpa using hs.between ht (c := '+') rfl

/-- A term subtracted from an expression: it is the negation of what is added. -/
lemma difference (hl : Denotes .expression s l) (hr : Denotes .term t (.negation r)) :
    Denotes .expression (s ++ (" - " ++ t)) (.join .sum l r) := by
  obtain ⟨tree, hphrase, hmeaning⟩ := iff_exists_phrase.1 hl
  obtain ⟨tree', hphrase', hmeaning'⟩ := iff_exists_phrase.1 hr
  refine iff_exists_phrase.2 ⟨_, hphrase.minus hphrase', hmeaning.join .sum ?_⟩
  exact hmeaning'.negation.trans (SameMeaning.negation_negation r).symm

/-- A text that denotes an expression is read as one of the same meaning. -/
lemma exists_parse_eq (h : Denotes .expression s e) :
    ∃ tree, Expr.parse s = .ok tree ∧ SameMeaning tree e := by
  obtain ⟨tree, hphrase, hmeaning⟩ := iff_exists_phrase.1 h
  exact ⟨tree, hphrase.parse_eq, hmeaning⟩

end Denotes

/-- A phrase for an expression denotes it. -/
lemma Phrase.denotes {level : Level} {s : String} {e : Expr} (h : Phrase level s e) :
    Denotes level s e :=
  Denotes.iff_exists_phrase.2 ⟨e, h, .refl e⟩

end Grammar

namespace Expr

open Grammar (Level Phrase Denotes phrase_name phrase_numeral)

/-! ### Readable expressions -/

/-- An expression of integers that are not too long and variables that are called by names. -/
inductive Readable : Expr → Prop
  | integer (n : ℤ) : (Numeral.digits n.natAbs).length ≤ Numeral.digitLimit →
      Readable (integer n)
  | var (c : Char) (cs : List Char) : c.isAlpha = true → (∀ d ∈ cs, Token.isNamePart d = true) →
      Readable (var (String.ofList (c :: cs)))
  | negation {e : Expr} : Readable e → Readable (negation e)
  | nary (op : AssocOp) {a b : Expr} {rest : List Expr} :
      (∀ t ∈ a :: b :: rest, Readable t) → Readable (nary op a b rest)
  | division {l r : Expr} : Readable l → Readable r → Readable (division l r)
  | parentheses {e : Expr} : Readable e → Readable (parentheses e)

/-- A readable expression can be written. -/
lemma Readable.isWritable {e : Expr} (h : Readable e) : e.isWritable = true := by
  induction h with
  | integer n hn => exact (Numeral.fits_iff_length_digits_le n).2 hn
  | var => rfl
  | negation _ ih => exact ih
  | nary op _ ih => exact isWritable_nary_iff.2 ih
  | division _ _ hl hr => rw [Expr.isWritable, hl, hr]; rfl
  | parentheses _ ih => exact ih

/-- A readable expression is not empty. -/
lemma Readable.isEmpty {e : Expr} (h : Readable e) : e.isEmpty = false := by
  cases h <;> rfl

/-! ### Enclosed texts -/

section Enclosed

variable {e : Expr} {text : String} (h : Denotes e.phraseLevel text e)

include h

/-- What denotes an expression at its level denotes it as a whole. -/
lemma denotes_expression : Denotes .expression text e := by
  obtain ⟨tree, hphrase, htree⟩ := Denotes.iff_exists_phrase.1 h
  exact Denotes.iff_exists_phrase.2 ⟨tree, phrase_expression hphrase, htree⟩

/-- A text that is put in parentheses where necessary denotes its expression at a level. -/
lemma denotes_enclosed {level : Level} {precedence : ℕ} {inclusive : Bool}
    (hlevel : ∀ own : Level, own = .signed ∨
      (if inclusive then precedence + 1 else precedence) ≤ own.precedence →
        level.precedence ≤ own.precedence) :
    Denotes level (enclosed precedence inclusive e text) e := by
  obtain ⟨tree, hphrase, htree⟩ := Denotes.iff_exists_phrase.1 h
  exact Denotes.iff_exists_phrase.2 ⟨tree, phrase_enclosed hphrase hlevel, htree⟩

/-- A factor is a term. -/
lemma denotes_factorText : Denotes .term (factorText (e, text)) e :=
  denotes_enclosed h (by decide)

end Enclosed

/-! ### Sums -/

/-- Whether the texts of an expression denote what they should: the text on its own the expression
at its level, and what is written after a minus sign the negated expression as a term. -/
structure Rendered (e : Expr) : Prop where
  text : Denotes e.phraseLevel (render e).text e
  subtracted : ∀ t ∈ (render e).subtracted, Denotes .term t (negation e)

/-- The texts are made item by item. -/
lemma renderAll_eq_map (es : List Expr) : renderAll es = es.map render := by
  induction es with
  | nil => rfl
  | cons e es ih => rw [renderAll, ih, List.map_cons]

/-- A further term of a sum is added or subtracted. -/
lemma Rendered.addend {e l : Expr} {s : String} (h : Rendered e) (hl : Denotes .expression s l) :
    Denotes .expression (s ++ (render e).addend) (join .sum l e) := by
  unfold Rendering.addend
  split
  · next t ht => exact hl.difference (h.subtracted t ht)
  · exact hl.sum (denotes_expression h.text)

/-- Further terms are added or subtracted one after the other. -/
lemma denotes_addends {es : List Expr} (h : ∀ e ∈ es, Rendered e) {s : String} {l : Expr}
    (hl : Denotes .expression s l) :
    Denotes .expression (s ++ String.join ((renderAll es).map Rendering.addend))
      (ofTerms .sum (l :: es)) := by
  induction es generalizing s l with
  | nil => simpa [renderAll, ofTerms] using hl
  | cons e es ih =>
    rw [List.forall_mem_cons] at h
    rw [renderAll, List.map_cons, String.join_cons, ← String.append_assoc]
    exact (ih h.2 (h.1.addend hl)).congr (.ofTerms_join_cons .sum l e es)

/-! ### Integers -/

/-- The text of a negative number is that of its absolute value after a minus sign. -/
lemma text_of_neg {n : ℤ} (h : n < 0) : Numeral.text n = "-" ++ Numeral.text n.natAbs := by
  have habs : ¬ ((n.natAbs : ℤ) < 0) := Int.not_lt.2 (Int.natCast_nonneg _)
  rw [← String.toList_inj, String.toList_append, Numeral.text, Numeral.text, if_pos h, if_neg habs,
    String.toList_ofList, String.toList_ofList, Int.natAbs_natCast]
  simp

/-- The absolute value of a negative constant in a readable expression is an integer that is denoted
by its text and has the meaning of the negated constant. -/
lemma denotes_negatedConstant {e c : Expr} (he : Readable e) (h : e.negatedConstant? = some c) :
    Denotes .signed c.constantText c ∧ c.phraseLevel = .signed ∧ c.isEmpty = false ∧
      SameMeaning c (negation e) := by
  cases he with
  | integer n hn =>
    rw [negatedConstant?] at h
    split at h
    · next hneg =>
      obtain rfl := Option.some.inj h
      have habs : (n.natAbs : ℤ) = -n := by omega
      refine ⟨(phrase_numeral hn).denotes.loosen (by decide), rfl, rfl, ?_⟩
      rw [habs]
      exact .negation_integer n
    · exact nomatch h
  | _ => exact nomatch h

/-- An integer is denoted by its text, and a negative one is subtracted as its absolute value. -/
lemma rendered_integer {n : ℤ} (h : (Numeral.digits n.natAbs).length ≤ Numeral.digitLimit) :
    Rendered (integer n) := by
  have habs : Denotes .signed (Numeral.text n.natAbs) (integer n.natAbs) :=
    (phrase_numeral h).denotes.loosen (by decide)
  refine ⟨?_, fun t ht => ?_⟩
  · by_cases hneg : n < 0
    · have hmeaning := SameMeaning.negation_integer n.natAbs
      rw [show -(n.natAbs : ℤ) = n by omega] at hmeaning
      rw [render, text_of_neg hneg]
      exact habs.negated.congr hmeaning.symm
    · rw [Int.natAbs_of_nonneg (Int.not_lt.1 hneg)] at habs
      exact habs
  · obtain ⟨c, hc, rfl⟩ := Option.map_eq_some_iff.1 ht
    obtain ⟨hconstant, -, -, hmeaning⟩ := denotes_negatedConstant (.integer n h) hc
    exact (hconstant.loosen (by decide)).congr hmeaning

/-! ### Products -/

/-- Factors with multiplication signs between them denote their product. -/
lemma denotes_intercalate {parts : List (Expr × String)} (hne : parts ≠ [])
    (h : ∀ part ∈ parts, Denotes part.1.phraseLevel part.2 part.1) :
    Denotes .term (" * ".intercalate (parts.map factorText))
      (ofTerms .product (parts.map (·.1))) := by
  induction parts with
  | nil => exact absurd rfl hne
  | cons part parts ih =>
    rw [List.forall_mem_cons] at h
    have hpart := denotes_factorText h.1
    cases parts with
    | nil => exact hpart
    | cons next parts =>
      have hparts := ih (List.cons_ne_nil next parts) h.2
      rw [List.map_cons, List.map_cons, String.intercalate_cons_cons]
      exact (hpart.product hparts).congr (.join_ofTerms .product part.1 (List.cons_ne_nil _ _))

/-- A mere sign stands for a factor minus one. -/
lemma denotes_sign {first : Expr} {es : List Expr} {s : String} (hfirst : first.isMinusOne = true)
    (hes : es ≠ []) (h : Denotes .term s (ofTerms .product es)) :
    Denotes .term ("-" ++ s) (ofTerms .product (first :: es)) := by
  obtain rfl : first = integer (-1) := by
    cases first with
    | integer n => exact congrArg integer (of_decide_eq_true hfirst)
    | _ => exact nomatch hfirst
  -- Minus one times the others is the negation of one times the others.
  have hproduct := (SameMeaning.product_negation (integer 1) es).trans
    (SameMeaning.product_one hes).negation
  exact h.negated_term.congr
    (((SameMeaning.negation_integer 1).ofTerms_cons .product es).trans hproduct).symm

/-- The text of factors denotes their product. -/
lemma denotes_factorsText {parts : List (Expr × String)} (hne : parts ≠ [])
    (h : ∀ part ∈ parts, Denotes part.1.phraseLevel part.2 part.1) :
    Denotes .term (factorsText parts) (ofTerms .product (parts.map (·.1))) := by
  induction parts with
  | nil => exact absurd rfl hne
  | cons part parts ih =>
    cases parts with
    | nil => exact denotes_factorText (h part List.mem_cons_self)
    | cons next parts =>
      rw [factorsText]
      split
      · next hsign =>
        rw [List.forall_mem_cons] at h
        exact denotes_sign hsign (List.cons_ne_nil _ _) (ih (List.cons_ne_nil _ _) h.2)
      · exact denotes_intercalate hne h

/-- Without empty factors none is left out. -/
lemma filter_isEmpty {parts : List (Expr × String)} (h : ∀ part ∈ parts, part.1.isEmpty = false) :
    (parts.filter fun part => !part.1.isEmpty) = parts :=
  List.filter_eq_self.2 fun part hpart => by rw [h part hpart]; rfl

/-- The text of a product denotes it. -/
lemma denotes_productText {first : Expr × String} {others : List (Expr × String)}
    (hne : others ≠ []) (hempty : ∀ part ∈ others, part.1.isEmpty = false)
    (h : ∀ part ∈ first :: others, Denotes part.1.phraseLevel part.2 part.1) :
    Denotes .term (productText first others) (ofTerms .product (first.1 :: others.map (·.1))) := by
  unfold productText
  split
  · next hsign =>
    rw [List.forall_mem_cons] at h
    rw [filter_isEmpty hempty]
    exact denotes_sign hsign (by simpa using hne) (denotes_factorsText hne h.2)
  · exact denotes_intercalate (List.cons_ne_nil first others) h

/-- What is written after a minus sign for a product denotes the negated product. -/
lemma denotes_subtractedProduct {first : Expr} {others : List (Expr × String)} {t : String}
    (hfirst : Readable first) (hne : others ≠ [])
    (hempty : ∀ part ∈ others, part.1.isEmpty = false)
    (h : ∀ part ∈ others, Denotes part.1.phraseLevel part.2 part.1)
    (ht : subtractedProduct? first others = some t) :
    Denotes .term t (negation (ofTerms .product (first :: others.map (·.1)))) := by
  obtain ⟨coefficient, hcoefficient, rfl⟩ := Option.map_eq_some_iff.1 ht
  obtain ⟨hconstant, hlevel, hnonempty, hmeaning⟩ := denotes_negatedConstant hfirst hcoefficient
  have hproduct := (hmeaning.ofTerms_cons .product (others.map (·.1))).trans
    (.product_negation first _)
  dsimp only
  split
  · have hfactors : others.map (·.1) ≠ [] := mt List.map_eq_nil_iff.1 hne
    rw [filter_isEmpty hempty]
    exact (denotes_factorsText hne h).congr
      ((SameMeaning.product_one hfactors).symm.trans hproduct)
  · have hparts : ∀ part ∈ (coefficient, coefficient.constantText) :: others,
        Denotes part.1.phraseLevel part.2 part.1 :=
      List.forall_mem_cons.2 ⟨hlevel.symm ▸ hconstant, h⟩
    rw [filter_isEmpty (List.forall_mem_cons.2 ⟨hnonempty, hempty⟩)]
    exact (denotes_factorsText (List.cons_ne_nil _ _) hparts).congr hproduct

/-! ### Formulas -/

/-- The texts of a product denote it, if those of its factors do. -/
lemma rendered_product {a b : Expr} {rest : List Expr} (ha : Readable a)
    (hreadable : ∀ e ∈ b :: rest, Readable e) (h : ∀ e ∈ a :: b :: rest, Rendered e) :
    Rendered (product a b rest) := by
  have hothers : (b, (render b).text) :: rest.zip ((renderAll rest).map Rendering.text) =
      (b :: rest).map fun e => (e, (render e).text) := by
    rw [renderAll_eq_map, List.map_map, List.map_cons]
    exact congrArg _ List.map_prod_left_eq_zip.symm
  have hterms : ((b :: rest).map fun e => (e, (render e).text)).map (·.1) = b :: rest := by
    simp [Function.comp_def]
  have hempty : ∀ part ∈ (b :: rest).map fun e => (e, (render e).text), part.1.isEmpty = false := by
    intro part hpart
    obtain ⟨e, he, rfl⟩ := List.mem_map.1 hpart
    exact (hreadable e he).isEmpty
  have hparts : ∀ part ∈ (a :: b :: rest).map fun e => (e, (render e).text),
      Denotes part.1.phraseLevel part.2 part.1 := by
    intro part hpart
    obtain ⟨e, he, rfl⟩ := List.mem_map.1 hpart
    exact (h e he).text
  have hne : (b :: rest).map (fun e => (e, (render e).text)) ≠ [] := List.cons_ne_nil _ _
  refine ⟨?_, fun t ht => ?_⟩
  · have htext := denotes_productText hne hempty hparts
    rw [hterms] at htext
    rw [render, hothers]
    exact htext
  · rw [render, hothers] at ht
    have hsubtracted := denotes_subtractedProduct ha hne hempty
      (fun part hpart => hparts part (List.mem_cons_of_mem _ hpart)) ht
    rw [hterms] at hsubtracted
    exact hsubtracted

/-- The texts of a readable expression denote it. -/
lemma rendered_of_readable {e : Expr} (h : Readable e) : Rendered e := by
  induction h with
  | integer n hn => exact rendered_integer hn
  | var c cs hc hcs =>
    have hname : Denotes .signed _ (var (String.ofList (c :: cs))) :=
      (phrase_name hc hcs).denotes.loosen (by decide)
    exact ⟨hname, nofun⟩
  | @negation e _ ih =>
    refine ⟨(denotes_enclosed ih.text (by decide)).negated, ?_⟩
    rintro _ ⟨⟩
    exact (denotes_enclosed ih.text (by decide)).congr (.negation_negation e)
  | @nary op a b rest hreadable ih =>
    cases op with
    | sum =>
      rw [List.forall_mem_cons, List.forall_mem_cons] at ih
      have hfirst := ih.2.1.addend (denotes_expression ih.1.text)
      exact ⟨(denotes_addends ih.2.2 hfirst).congr (.ofTerms_join_cons .sum a b rest), nofun⟩
    | product =>
      rw [List.forall_mem_cons] at hreadable
      exact rendered_product hreadable.1 hreadable.2 ih
  | @division l r _ _ hl hr =>
    refine ⟨?_, nofun⟩
    exact (denotes_enclosed hl.text (by decide)).quotient (denotes_enclosed hr.text (by decide))
  | @parentheses e _ ih =>
    have hsigned : Denotes .signed _ e :=
      (denotes_expression ih.text).parenthesized.loosen (by decide)
    exact ⟨hsigned.congr (.parentheses e), nofun⟩

/-- The formula of a readable expression can be written and is read as an expression that has values
for the same assignments, and the same values. -/
theorem parse_formula {e : Expr} (h : Readable e) :
    ∃ text e', e.formula? = .ok text ∧ parse text = .ok e' ∧
      ∀ ρ, (e'.Defined ρ ↔ e.Defined ρ) ∧ (e.Defined ρ → e'.value ρ = e.value ρ) := by
  obtain ⟨e', hparse, hmeaning⟩ :=
    (denotes_expression (rendered_of_readable h).text).exists_parse_eq
  refine ⟨e.formula, e', if_pos h.isWritable, hparse, fun ρ => ?_⟩
  exact ⟨hmeaning.defined ρ, fun _ => hmeaning.value ρ⟩

/-- For instance a product with a difference in it, from which a quotient is subtracted. -/
theorem parse_formula_difference :
    formula? (sum (product (integer (-2)) (sum (var "x") (integer (-3)) []) [])
        (negation (division (var "y1") (negation (var "x")))) []) =
      .ok "-2 * (x - 3) - y1 / -x" ∧
      ∃ e', parse "-2 * (x - 3) - y1 / -x" = .ok e' ∧ e'.Defined (fun _ => 2) ∧
        e'.value (fun _ => 2) = 3 := by
  have hx : Readable (var "x") := .var 'x' [] rfl nofun
  have hy : Readable (var "y1") := .var 'y' ['1'] rfl (List.forall_mem_singleton.2 rfl)
  have hdifference : Readable (sum (var "x") (integer (-3)) []) :=
    .nary .sum (List.forall_mem_cons.2
      ⟨hx, List.forall_mem_singleton.2 (.integer (-3) (by decide))⟩)
  have hproduct : Readable (product (integer (-2)) (sum (var "x") (integer (-3)) []) []) :=
    .nary .product (List.forall_mem_cons.2
      ⟨.integer (-2) (by decide), List.forall_mem_singleton.2 hdifference⟩)
  have hquotient : Readable (negation (division (var "y1") (negation (var "x")))) :=
    .negation (.division hy (.negation hx))
  obtain ⟨text, e', htext, hparse, hmeaning⟩ := parse_formula
    (.nary .sum (List.forall_mem_cons.2 ⟨hproduct, List.forall_mem_singleton.2 hquotient⟩))
  have hformula : formula? (sum (product (integer (-2)) (sum (var "x") (integer (-3)) []) [])
      (negation (division (var "y1") (negation (var "x")))) []) =
      .ok "-2 * (x - 3) - y1 / -x" := by
    decide +kernel
  obtain rfl := Except.ok.inj (hformula.symm.trans htext)
  obtain ⟨hdefined, hvalue⟩ := hmeaning fun _ => 2
  have hdef : Defined (fun _ => 2) (sum
      (product (integer (-2)) (sum (var "x") (integer (-3)) []) [])
      (negation (division (var "y1") (negation (var "x")))) []) := by
    simp [Defined, AllDefined, value]
  refine ⟨hformula, e', hparse, hdefined.2 hdef, (hvalue hdef).trans ?_⟩
  norm_num [value, values]

end Expr

end TermAlgebra
