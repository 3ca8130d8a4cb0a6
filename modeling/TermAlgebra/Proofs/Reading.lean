import Mathlib.Tactic
import TermAlgebra.Proofs.Conservation
import TermAlgebra.Proofs.Rendering

/-!
# The trees that formulas are read as

Which tree the formula of an expression is read as.

Constants are written without brackets, so that a negative integer comes back as a negation, a
factor minus one as a sign before the next factor, and a negative coefficient of a later term of a
sum as a subtraction.  `Expr.reading` follows the texts of an expression node by node, and an
expression is `Legible` if these texts group in the same way as its nodes do: it is flat, and no
division and no minus one stands behind another factor.  The texts of a legible expression are
phrases for these trees (`Expr.readsAs_of_legible`), so that its formula is read as the first of
them (`Expr.parse_formula_eq`).
-/

namespace TermAlgebra.Expr

open Grammar (Phrase phrase_name phrase_numeral)

/-! ### Readings -/

/-- The trees that the texts of an expression are read as: on its own, and after a minus sign in a
sum if it can be subtracted there. -/
structure Reading where
  text : Expr
  subtracted : Option Expr := none

/-- The tree that a later term of a sum is read as, with the sign before it. -/
def Reading.addend (r : Reading) : Expr :=
  match r.subtracted with
  | some e => negation e
  | none => r.text

/-- The trees of a constant. -/
def constantReading (e : Expr) : Reading :=
  match e.negatedConstant? with
  | some c => ⟨negation c, some c⟩
  | none => ⟨e, none⟩

/-- The trees of a product, given its first factor and the trees of all factors. -/
def productReading (first tree second : Expr) (rest : List Expr) : Reading where
  text :=
    if first.isMinusOne then ofTerms .product (negation second :: rest)
    else ofTerms .product (tree :: second :: rest)
  subtracted := first.negatedConstant?.map fun coefficient =>
    if coefficient.integer? = some 1 then ofTerms .product (second :: rest)
    else ofTerms .product (coefficient :: second :: rest)

mutual

/-- The trees that the texts of an expression are read as. -/
def reading : Expr → Reading
  | empty => ⟨empty, none⟩
  | integer n => constantReading (integer n)
  | decimal d => constantReading (decimal d)
  | var s => ⟨var s, none⟩
  | negation e => ⟨negation (reading e).text, some (reading e).text⟩
  | sum a b rest =>
    ⟨sum (reading a).text (reading b).addend ((readingAll rest).map Reading.addend), none⟩
  | product a b rest =>
    productReading a (reading a).text (reading b).text ((readingAll rest).map Reading.text)
  | division l r => ⟨division (reading l).text (reading r).text, none⟩
  | parentheses e => ⟨(reading e).text, none⟩

/-- The trees of all the expressions. -/
def readingAll : List Expr → List Reading
  | [] => []
  | e :: es => reading e :: readingAll es

end

/-- The trees are listed item by item. -/
lemma readingAll_eq_map (es : List Expr) : readingAll es = es.map reading := by
  induction es with
  | nil => rfl
  | cons e es ih => rw [readingAll, ih, List.map_cons]

/-- The trees of the terms of a sum. -/
lemma reading_sum (a b : Expr) (rest : List Expr) :
    reading (sum a b rest) = ⟨ofTerms .sum ((reading a).text ::
      (b :: rest).map fun t => (reading t).addend), none⟩ := by
  rw [reading, readingAll_eq_map, List.map_map]
  rfl

/-- The trees of the factors of a product. -/
lemma reading_product (a b : Expr) (rest : List Expr) :
    reading (product a b rest) = productReading a (reading a).text (reading b).text
      (rest.map fun t => (reading t).text) := by
  rw [reading, readingAll_eq_map, List.map_map]
  rfl

/-! ### Legible expressions -/

/-- Whether no division and no minus one stands behind another factor. -/
def OrderedNode : Expr → Prop
  | product _ b rest => ∀ t ∈ b :: rest, t.isDivision = false ∧ t.isMinusOne = false
  | _ => True

/-- Readable expressions whose formulas group as their nodes do. -/
structure Legible (e : Expr) : Prop where
  readable : Readable e
  flat : e.Flat
  ordered : ∀ t ∈ e.parts, t.OrderedNode

namespace Legible

/-- What a negation is of is legible. -/
lemma negation {e : Expr} (h : Legible (negation e)) : Legible e := by
  obtain ⟨hreadable, hflat, hordered⟩ := h
  cases hreadable with
  | negation hreadable =>
    exact ⟨hreadable, flat_negation_iff.1 hflat, fun t ht => hordered t (List.mem_cons_of_mem _ ht)⟩

/-- The terms of a legible node are legible and no nodes of its operation. -/
lemma terms {op : AssocOp} {a b : Expr} {rest : List Expr} (h : Legible (nary op a b rest)) :
    ∀ t ∈ a :: b :: rest, Legible t ∧ t.isNary op = false := by
  obtain ⟨hreadable, hflat, hordered⟩ := h
  have hterms := flat_nary_iff.1 hflat
  cases hreadable with
  | nary _ hreadable =>
    exact fun t ht => ⟨⟨hreadable t ht, (hterms t ht).1,
      fun u hu => hordered u (mem_parts_nary.2 (Or.inr ⟨t, ht, hu⟩))⟩, (hterms t ht).2⟩

/-- The factors behind the first one are neither divisions nor minus one. -/
lemma factors {a b : Expr} {rest : List Expr} (h : Legible (product a b rest)) :
    ∀ t ∈ b :: rest, t.isDivision = false ∧ t.isMinusOne = false :=
  h.ordered _ (mem_parts_nary.2 (Or.inl rfl))

/-- The sides of a legible division are legible. -/
lemma sides {l r : Expr} (h : Legible (division l r)) : Legible l ∧ Legible r := by
  obtain ⟨hreadable, hflat, hordered⟩ := h
  obtain ⟨hl, hr⟩ := flat_division_iff.1 hflat
  have hparts : ∀ t, t ∈ l.parts ∨ t ∈ r.parts → t.OrderedNode :=
    fun t ht => hordered t (List.mem_cons_of_mem _ (List.mem_append.2 ht))
  cases hreadable with
  | division hlreadable hrreadable =>
    exact ⟨⟨hlreadable, hl, fun t ht => hparts t (Or.inl ht)⟩,
      ⟨hrreadable, hr, fun t ht => hparts t (Or.inr ht)⟩⟩

end Legible

/-- What is no node of an operation is not read as one. -/
lemma isNary_reading {op : AssocOp} {e : Expr} (hflat : e.Flat) (h : e.isNary op = false) :
    (reading e).text.isNary op = false := by
  have hconstant : ∀ c : Expr, c.isConstant = true →
      (constantReading c).text.isNary op = false := by
    intro c hc
    unfold constantReading
    split
    · rfl
    · cases c <;> first | rfl | exact Bool.noConfusion hc
  cases e with
  | integer n => exact hconstant _ rfl
  | decimal d => exact hconstant _ rfl
  | nary o a b rest =>
    cases o with
    | sum => exact h
    | product =>
      rw [reading_product, productReading]
      dsimp only
      split
      · cases rest with
        | nil => rfl
        | cons c rest => exact h
      · exact h
  | parentheses e => exact absurd hflat.flatNode not_false
  | _ => rfl

/-- What is no sum is not read as one behind another term either. -/
lemma isNary_addend {e : Expr} (hflat : e.Flat) (h : e.isNary .sum = false) :
    (reading e).addend.isNary .sum = false := by
  unfold Reading.addend
  split
  · rfl
  · exact isNary_reading hflat h

/-! ### Texts and their trees -/

/-- The terms of two joined operands are those of the first one and then those of the second one. -/
lemma terms_join (op : AssocOp) (l r : Expr) :
    (join op l r).terms op = l.terms op ++ r.terms op := by
  obtain ⟨a, b, rest, hjoin, hterms⟩ := join_eq_nary op l r
  rw [hjoin, terms_nary, hterms]

/-- Whether the texts of an expression are phrases for the trees that they should be read as. -/
structure ReadsAs (e : Expr) : Prop where
  text : Phrase e.phraseLevel (render e).text (reading e).text
  subtracted : Option.Rel (Phrase .term) (render e).subtracted (reading e).subtracted

/-- What is no sum is a term. -/
lemma phrase_term {e tree : Expr} {text : String} (h : Phrase e.phraseLevel text tree)
    (hsum : e.isNary .sum = false) : Phrase .term text tree := by
  cases e with
  | nary op a b rest =>
    cases op with
    | sum => exact Bool.noConfusion hsum
    | product => exact h
  | division l r => exact h
  | _ =>
    have hsigned : Phrase .signed text tree := h
    exact hsigned.loosen (by decide)

/-- The text of a factor that is neither a product nor a division is a signed operand. -/
lemma phrase_signed_factorText {e tree : Expr} {text : String}
    (h : Phrase e.phraseLevel text tree) (hproduct : e.isNary .product = false)
    (hdivision : e.isDivision = false) : Phrase .signed (factorText (e, text)) tree := by
  cases e with
  | nary op a b rest =>
    cases op with
    | sum => exact h.parenthesized.loosen (by decide)
    | product => exact Bool.noConfusion hproduct
  | division l r => exact Bool.noConfusion hdivision
  | _ => exact h

/-! ### Sums -/

/-- A further term of a sum is joined to the terms before it. -/
lemma ReadsAs.addend {e l : Expr} {s : String} (h : ReadsAs e) (hsum : e.isNary .sum = false)
    (hl : Phrase .expression s l) :
    Phrase .expression (s ++ (render e).addend) (join .sum l (reading e).addend) := by
  have hsubtracted := h.subtracted
  unfold Rendering.addend Reading.addend
  generalize (render e).subtracted = text at hsubtracted ⊢
  generalize (reading e).subtracted = tree at hsubtracted ⊢
  cases hsubtracted with
  | some hterm => exact hl.minus hterm
  | none => exact hl.plus (phrase_term h.text hsum)

/-- Further terms are joined one after the other. -/
lemma phrase_addends {es : List Expr}
    (h : ∀ e ∈ es, ReadsAs e ∧ e.isNary .sum = false ∧ (reading e).addend.isNary .sum = false)
    {s : String} {l : Expr} (hl : Phrase .expression s l) :
    Phrase .expression (s ++ String.join ((renderAll es).map Rendering.addend))
      (ofTerms .sum (l.terms .sum ++ es.map fun e => (reading e).addend)) := by
  induction es generalizing s l with
  | nil => simpa [renderAll, ofTerms_terms] using hl
  | cons e es ih =>
    rw [List.forall_mem_cons] at h
    obtain ⟨⟨hreads, hsum, htree⟩, hrest⟩ := h
    have hnext := ih hrest (hreads.addend hsum hl)
    rw [terms_join, terms_of_not_isNary htree, List.append_assoc, List.singleton_append] at hnext
    rw [renderAll, List.map_cons, String.join_cons, ← String.append_assoc]
    exact hnext

/-! ### Products -/

/-- Further factors are joined one after the other. -/
lemma phrase_intercalate {es : List Expr}
    (h : ∀ e ∈ es, Phrase .signed (factorText (e, (render e).text)) (reading e).text ∧
      (reading e).text.isNary .product = false)
    {s : String} {l : Expr} (hl : Phrase .term s l) :
    Phrase .term (" * ".intercalate (s :: es.map fun e => factorText (e, (render e).text)))
      (ofTerms .product (l.terms .product ++ es.map fun e => (reading e).text)) := by
  induction es generalizing s l with
  | nil => simpa [ofTerms_terms] using hl
  | cons e es ih =>
    rw [List.forall_mem_cons] at h
    obtain ⟨⟨hfactor, htree⟩, hrest⟩ := h
    have hnext := ih hrest (hl.times hfactor)
    rw [terms_join, terms_of_not_isNary htree, List.append_assoc, List.singleton_append,
      String.intercalate_cons_append, ← String.intercalate_cons_cons] at hnext
    exact hnext

/-- The same for a first factor that is no product. -/
lemma phrase_factors {es : List Expr}
    (h : ∀ e ∈ es, Phrase .signed (factorText (e, (render e).text)) (reading e).text ∧
      (reading e).text.isNary .product = false)
    {s : String} {l : Expr} (hl : Phrase .term s l) (hproduct : l.isNary .product = false) :
    Phrase .term (" * ".intercalate (s :: es.map fun e => factorText (e, (render e).text)))
      (ofTerms .product (l :: es.map fun e => (reading e).text)) := by
  have htext := phrase_intercalate h hl
  rwa [terms_of_not_isNary hproduct] at htext

/-- The text of factors that do not start with minus one. -/
lemma factorsText_eq_intercalate {part : Expr × String} (parts : List (Expr × String))
    (h : part.1.isMinusOne = false) :
    factorsText (part :: parts) = " * ".intercalate ((part :: parts).map factorText) := by
  cases parts with
  | nil => rfl
  | cons next parts => rw [factorsText, h, if_neg Bool.false_ne_true]

/-- What has an absolute value is the negative integer of it, or a decimal. -/
lemma negatedConstant?_eq_some {e c : Expr} (h : e.negatedConstant? = some c) :
    (∃ n : ℕ, e = integer (-n) ∧ c = integer n) ∨ ∃ d, e = decimal d := by
  cases e with
  | integer n =>
    rw [negatedConstant?] at h
    split at h
    · next hneg =>
      have habs : n = -(n.natAbs : ℤ) := by omega
      exact Or.inl ⟨n.natAbs, congrArg integer habs, (Option.some.inj h).symm⟩
    · exact absurd h.symm (Option.some_ne_none c)
  | decimal d => exact Or.inr ⟨d, rfl⟩
  | _ => exact absurd h.symm (Option.some_ne_none c)

/-- The absolute value of a negative constant is a signed operand that is no minus one. -/
lemma phrase_negatedConstant {e c : Expr} (he : Readable e) (h : e.negatedConstant? = some c) :
    ∃ n : ℕ, c = integer n ∧ Phrase .signed c.constantText c := by
  rcases negatedConstant?_eq_some h with ⟨n, rfl, rfl⟩ | ⟨d, rfl⟩
  · cases he with
    | integer _ hn =>
      rw [Int.natAbs_neg, Int.natAbs_natCast] at hn
      exact ⟨n, rfl, (phrase_numeral hn).loosen (by decide)⟩
  · cases he

/-- An integer is read as it is, or as the negation of its absolute value. -/
lemma readsAs_integer {n : ℤ} (h : (Numeral.digits n.natAbs).length ≤ Numeral.digitLimit) :
    ReadsAs (integer n) := by
  have habs : Phrase .signed (Numeral.text n.natAbs) (integer n.natAbs) :=
    (phrase_numeral h).loosen (by decide)
  by_cases hneg : n < 0
  · have hnegated : (integer n).negatedConstant? = some (integer n.natAbs) := if_pos hneg
    constructor
    · rw [render, reading, constantReading, hnegated, text_of_neg hneg]
      exact habs.negated
    · rw [render, reading, constantReading, hnegated]
      exact .some (habs.loosen (by decide))
  · have hnegated : (integer n).negatedConstant? = none := if_neg hneg
    rw [Int.natAbs_of_nonneg (Int.not_lt.1 hneg)] at habs
    constructor
    · rw [render, reading, constantReading, hnegated]
      exact habs
    · rw [render, reading, constantReading, hnegated]
      exact .none

section Product

variable {a b : Expr} {rest : List Expr} (h : Legible (product a b rest))
  (hreads : ∀ t ∈ a :: b :: rest, ReadsAs t)

include h hreads

/-- The factors behind the first one are signed operands. -/
lemma phrase_signed_factors : ∀ t ∈ b :: rest,
    Phrase .signed (factorText (t, (render t).text)) (reading t).text ∧
      (reading t).text.isNary .product = false := by
  intro t ht
  have hmem := List.mem_cons_of_mem a ht
  obtain ⟨hlegible, hproduct⟩ := h.terms t hmem
  exact ⟨phrase_signed_factorText (hreads t hmem).text hproduct (h.factors t ht).1,
    isNary_reading hlegible.flat hproduct⟩

/-- The texts of a product are phrases for its trees, if those of its factors are. -/
lemma readsAs_product : ReadsAs (product a b rest) := by
  have hothers : (b, (render b).text) :: rest.zip ((renderAll rest).map Rendering.text) =
      (b :: rest).map fun e => (e, (render e).text) := by
    rw [renderAll_eq_map, List.map_map, List.map_cons]
    exact congrArg _ List.map_prod_left_eq_zip.symm
  have hempty : ∀ part ∈ (b :: rest).map fun e => (e, (render e).text),
      part.1.isEmpty = false := by
    intro part hpart
    obtain ⟨e, he, rfl⟩ := List.mem_map.1 hpart
    exact (h.terms e (List.mem_cons_of_mem a he)).1.readable.isEmpty
  obtain ⟨hlegible, hproduct⟩ := h.terms a List.mem_cons_self
  have hfactors := phrase_signed_factors h hreads
  obtain ⟨hsecond, hsecondtree⟩ := hfactors b List.mem_cons_self
  have hrest := fun t ht => hfactors t (List.mem_cons_of_mem b ht)
  have htexts : factorsText ((b :: rest).map fun e => (e, (render e).text)) =
      " * ".intercalate (factorText (b, (render b).text) ::
        rest.map fun t => factorText (t, (render t).text)) := by
    have hminus := (h.factors b List.mem_cons_self).2
    rw [List.map_cons, factorsText_eq_intercalate _ hminus, List.map_cons, List.map_map]
    rfl
  constructor
  · rw [render, hothers, reading_product, productText, productReading]
    dsimp only
    split
    · rw [filter_isEmpty hempty, htexts, ← String.intercalate_cons_append]
      exact phrase_factors hrest (hsecond.negated.loosen (by decide)) rfl
    · have hfirst := phrase_factorText (hreads a List.mem_cons_self).text
      have htext := phrase_factors hfactors hfirst (isNary_reading hlegible.flat hproduct)
      rw [List.map_cons, List.map_map]
      exact htext
  · rw [render, hothers, reading_product, subtractedProduct?, productReading]
    cases hnegated : a.negatedConstant? with
    | none => exact .none
    | some c =>
      obtain ⟨n, rfl, hconstant⟩ := phrase_negatedConstant hlegible.readable hnegated
      refine .some ?_
      dsimp only
      split
      · next hone =>
        have hcoefficient : (integer n).integer? = some 1 := congrArg integer? hone
        rw [if_pos hcoefficient, filter_isEmpty hempty, htexts]
        exact phrase_factors hrest (hsecond.loosen (by decide)) hsecondtree
      · next hone =>
        have hall : ∀ part ∈ (integer n, (integer n).constantText) ::
            (b :: rest).map fun e => (e, (render e).text), part.1.isEmpty = false :=
          List.forall_mem_cons.2 ⟨rfl, hempty⟩
        have hfirst : Phrase .term (factorText (integer n, (integer n).constantText)) (integer n) :=
          phrase_factorText hconstant
        have hnot : (integer n).integer? ≠ some 1 :=
          fun hcoefficient => hone (congrArg integer (Option.some.inj hcoefficient))
        rw [if_neg hnot, filter_isEmpty hall,
          factorsText_eq_intercalate _ (by simp [isMinusOne]), List.map_cons, List.map_map]
        exact phrase_factors hfactors hfirst rfl

end Product

/-! ### Formulas -/

/-- The texts of a legible expression are phrases for its trees. -/
lemma readsAs_of_legible {e : Expr} (h : Legible e) : ReadsAs e := by
  induction e using Expr.induction with
  | empty => exact nomatch h.readable
  | decimal d => exact nomatch h.readable
  | integer n =>
    cases h.readable with
    | integer _ hn => exact readsAs_integer hn
  | var s =>
    cases h.readable with
    | var c cs hc hcs =>
      have hname : Phrase .signed _ (var (String.ofList (c :: cs))) :=
        (phrase_name hc hcs).loosen (by decide)
      exact ⟨hname, .none⟩
  | negation e ih =>
    have htext := (ih h.negation).text
    exact ⟨(phrase_enclosed htext (by decide)).negated, .some (phrase_enclosed htext (by decide))⟩
  | nary op a b rest ih =>
    have hreads : ∀ t ∈ a :: b :: rest, ReadsAs t := fun t ht => ih t ht (h.terms t ht).1
    cases op with
    | product => exact readsAs_product h hreads
    | sum =>
      have hterms : ∀ t ∈ b :: rest, ReadsAs t ∧ t.isNary .sum = false ∧
          (reading t).addend.isNary .sum = false := by
        intro t ht
        have hmem := List.mem_cons_of_mem a ht
        obtain ⟨hlegible, hsum⟩ := h.terms t hmem
        exact ⟨hreads t hmem, hsum, isNary_addend hlegible.flat hsum⟩
      obtain ⟨hlegible, hsum⟩ := h.terms a List.mem_cons_self
      have hfirst := phrase_expression (hreads a List.mem_cons_self).text
      have htext := phrase_addends hterms hfirst
      rw [terms_of_not_isNary (isNary_reading hlegible.flat hsum), renderAll, List.map_cons,
        String.join_cons, ← String.append_assoc] at htext
      refine ⟨?_, .none⟩
      rw [reading_sum]
      exact htext
  | division l r hl hr =>
    have hleft := (hl h.sides.1).text
    have hright := (hr h.sides.2).text
    refine ⟨?_, .none⟩
    exact (phrase_enclosed hleft (by decide)).dividedBy (phrase_enclosed hright (by decide))
  | parentheses e _ => exact absurd h.flat.flatNode not_false

/-- The formula of a legible expression is read as the tree that follows its texts. -/
theorem parse_formula_eq {e : Expr} (h : Legible e) :
    e.formula? = .ok e.formula ∧ parse e.formula = .ok (reading e).text := by
  have htext := (readsAs_of_legible h).text
  exact ⟨if_pos h.readable.isWritable, (phrase_expression htext).parse_eq⟩

end TermAlgebra.Expr
