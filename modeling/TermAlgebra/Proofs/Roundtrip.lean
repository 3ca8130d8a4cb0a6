import Mathlib.Tactic
import TermAlgebra.Proofs.Recovery
import TermAlgebra.Proofs.Rereading

/-!
# Formulas of trees that were read

Parsing undoes rendering on the trees that texts are read as.

A text has no negative constants, only signs before constants, and its operators join chains of
terms into one node.  Hence the tree of a text without decimals is `Plain` (`plain_of_parse`).  No
sign of a plain tree is absorbed by a constant when it is written, so the tree that follows its
texts is the tree itself (`Plain.reading`), and it is legible as soon as no division stands behind
another factor (`Plain.legible`).  Then its formula is read as the tree that was read before
(`parse_formula_of_parse`).
-/

namespace TermAlgebra.Expr

/-! ### Plain trees -/

/-- Trees of natural numbers that are not too long and variables that are called by names, without
parentheses and nodes that could be merged into the one above. -/
inductive Plain : Expr → Prop
  | integer (n : ℕ) : (Numeral.digits n).length ≤ Numeral.digitLimit → Plain (integer n)
  | var (c : Char) (cs : List Char) : c.isAlpha = true → (∀ d ∈ cs, Token.isNamePart d = true) →
      Plain (var (String.ofList (c :: cs)))
  | negation {e : Expr} : Plain e → Plain (negation e)
  | nary (op : AssocOp) {a b : Expr} {rest : List Expr} :
      (∀ t ∈ a :: b :: rest, Plain t) → (∀ t ∈ a :: b :: rest, t.isNary op = false) →
      Plain (nary op a b rest)
  | division {l r : Expr} : Plain l → Plain r → Plain (division l r)

namespace Plain

variable {e : Expr}

/-- A plain tree is readable. -/
lemma readable (h : Plain e) : Readable e := by
  induction h with
  | integer n hn => exact .integer n hn
  | var c cs hc hcs => exact .var c cs hc hcs
  | negation _ ih => exact .negation ih
  | nary op _ _ ih => exact .nary op ih
  | division _ _ hl hr => exact .division hl hr

/-- A plain tree is flat. -/
lemma flat (h : Plain e) : e.Flat := by
  induction h with
  | integer n => exact List.forall_mem_singleton.2 trivial
  | var c cs => exact List.forall_mem_singleton.2 trivial
  | negation _ ih => exact flat_negation_iff.2 ih
  | nary op _ hnary ih => exact flat_nary_iff.2 fun t ht => ⟨ih t ht, hnary t ht⟩
  | division _ _ hl hr => exact flat_division_iff.2 ⟨hl, hr⟩

/-- All parts of a plain tree are plain. -/
lemma of_mem_parts {t : Expr} (h : Plain e) (ht : t ∈ e.parts) : Plain t := by
  induction h with
  | integer n hn => exact List.mem_singleton.1 ht ▸ .integer n hn
  | var c cs hc hcs => exact List.mem_singleton.1 ht ▸ .var c cs hc hcs
  | negation he ih =>
    rcases List.mem_cons.1 ht with rfl | ht
    · exact .negation he
    · exact ih ht
  | nary op hplain hnary ih =>
    rcases mem_parts_nary.1 ht with rfl | ⟨u, hu, htu⟩
    · exact .nary op hplain hnary
    · exact ih u hu htu
  | division hl hr ihl ihr =>
    rw [parts, List.mem_cons, List.mem_append] at ht
    rcases ht with rfl | ht | ht
    · exact .division hl hr
    · exact ihl ht
    · exact ihr ht

/-- The terms of a plain operand are plain and no nodes of the operation. -/
lemma terms (h : Plain e) (op : AssocOp) : ∀ t ∈ e.terms op, Plain t ∧ t.isNary op = false := by
  rcases eq_nary_or_not_isNary op e with ⟨a, b, rest, rfl⟩ | hnot
  · rw [terms_nary]
    cases h with
    | nary _ hplain hnary => exact fun t ht => ⟨hplain t ht, hnary t ht⟩
  · rw [terms_of_not_isNary hnot, List.forall_mem_singleton]
    exact ⟨h, hnot⟩

/-- Joining plain operands gives a plain tree. -/
lemma join {l r : Expr} (op : AssocOp) (hl : Plain l) (hr : Plain r) : Plain (join op l r) := by
  obtain ⟨x, y, rest, hjoin, hterms⟩ := join_eq_nary op l r
  have hall : ∀ t ∈ x :: y :: rest, Plain t ∧ t.isNary op = false := by
    rw [hterms, List.forall_mem_append]
    exact ⟨hl.terms op, hr.terms op⟩
  rw [hjoin]
  exact .nary op (fun t ht => (hall t ht).1) fun t ht => (hall t ht).2

/-- No integer of a plain tree is negative. -/
lemma negatedConstant? (h : Plain e) : e.negatedConstant? = none := by
  cases h with
  | integer n => rw [Expr.negatedConstant?, if_neg (Int.not_lt.2 (Int.natCast_nonneg n))]
  | _ => rfl

/-- In particular none is minus one. -/
lemma isMinusOne (h : Plain e) : e.isMinusOne = false := by
  cases h with
  | integer n =>
    have hn : (n : ℤ) ≠ -1 := by omega
    exact decide_eq_false hn
  | _ => rfl

/-- The trees that the texts of a plain tree are read as are this tree, the one after a minus sign
together with the sign. -/
lemma reading (h : Plain e) :
    (reading e).text = e ∧ ∀ u ∈ (reading e).subtracted, Expr.negation u = e := by
  have hnone : ∀ {e : Expr}, ∀ u ∈ (none : Option Expr), Expr.negation u = e :=
    fun u hu => absurd hu (Option.not_mem_none u)
  induction h with
  | integer n hn =>
    rw [Expr.reading, constantReading, (Plain.integer n hn).negatedConstant?]
    exact ⟨rfl, hnone⟩
  | var c cs => exact ⟨rfl, hnone⟩
  | negation _ ih =>
    refine ⟨congrArg Expr.negation ih.1, ?_⟩
    rintro _ ⟨⟩
    exact congrArg Expr.negation ih.1
  | @nary op a b rest hplain _ ih =>
    rw [List.forall_mem_cons] at hplain ih
    obtain ⟨⟨ha, -⟩, hothers⟩ := ih
    cases op with
    | sum =>
      have haddend : ∀ t ∈ b :: rest, (Expr.reading t).addend = t := by
        intro t ht
        unfold Reading.addend
        split
        · next u hu => exact (hothers t ht).2 u hu
        · exact (hothers t ht).1
      rw [reading_sum, ha, List.map_congr_left haddend, List.map_id']
      exact ⟨rfl, hnone⟩
    | product =>
      rw [List.forall_mem_cons] at hothers
      rw [reading_product, productReading, hplain.1.negatedConstant?, hplain.1.isMinusOne, ha,
        hothers.1.1, List.map_congr_left fun t ht => (hothers.2 t ht).1, List.map_id']
      exact ⟨rfl, hnone⟩
  | division _ _ hl hr =>
    rw [Expr.reading, hl.1, hr.1]
    exact ⟨rfl, hnone⟩

/-- A plain tree is legible if no division stands behind another factor. -/
lemma legible (h : Plain e) (hordered : ∀ a b rest, product a b rest ∈ e.parts →
    ∀ t ∈ b :: rest, t.isDivision = false) : Legible e := by
  refine ⟨h.readable, h.flat, fun t ht => ?_⟩
  have hplain := h.of_mem_parts ht
  cases hplain with
  | @nary op a b rest hterms _ =>
    cases op with
    | sum => trivial
    | product =>
      exact fun u hu => ⟨hordered a b rest ht u hu,
        (hterms u (List.mem_cons_of_mem a hu)).isMinusOne⟩
  | _ => trivial

end Plain

/-! ### Trees that were read -/

/-- An operand that can be spelled is plain if it is no decimal. -/
lemma plain_of_ofToken? {t : Token} (ht : Token.Lexical t) {e : Expr} (h : ofToken? t = some e)
    (he : e.isDecimalFree = true) : Plain e := by
  cases ht with
  | integer digits hdigits hlimit =>
    obtain rfl := Option.some.inj h
    have hfits := Numeral.fits_value hdigits hlimit
    rw [Numeral.fits_iff_length_digits_le, Int.natAbs_natCast] at hfits
    exact .integer _ hfits
  | name c cs hc hcs =>
    obtain rfl := Option.some.inj h
    exact .var c cs hc hcs
  | decimal d =>
    obtain rfl := Option.some.inj h
    exact Bool.noConfusion he
  | operator op => exact nomatch h
  | paren side => exact nomatch h

/-- What a text is read as is plain if it has no decimals and is not empty. -/
lemma plain_of_parse {text : String} {t : Expr} (h : parse text = .ok t)
    (ht : t.isDecimalFree = true) (hempty : t.isEmpty = false) : Plain t := by
  have hjoin : ∀ op (l r : Expr), (l.isDecimalFree = true → Plain l) →
      (r.isDecimalFree = true → Plain r) → (join op l r).isDecimalFree = true →
        Plain (join op l r) := by
    intro op l r hl hr hlr
    obtain ⟨hleft, hright⟩ := (hereditary_isDecimalFree.join op l r).1 hlr
    exact (hl hleft).join op (hr hright)
  have hdivision : ∀ l r : Expr, (l.isDecimalFree = true → Plain l) →
      (r.isDecimalFree = true → Plain r) → (division l r).isDecimalFree = true →
        Plain (division l r) := by
    intro l r hl hr hlr
    obtain ⟨hleft, hright⟩ := isDecimalFree_division_iff.1 hlr
    exact .division (hl hleft) (hr hright)
  rcases parse_invariant (P := fun e => e.isDecimalFree = true → Plain e)
    (fun e he hfree => .negation (he ((hereditary_isDecimalFree.negation e).1 hfree))) hjoin
    hdivision (fun _ htoken _ he => plain_of_ofToken? htoken he) h with rfl | hplain
  · exact Bool.noConfusion hempty
  · exact hplain ht

/-- If no division stands behind another factor in what a text is read as, its formula is read as
the same tree again. -/
theorem parse_formula_of_parse {s : String} {t : Expr} (h : parse s = .ok t)
    (ht : t.isDecimalFree = true) (hempty : t.isEmpty = false)
    (hordered : ∀ a b rest, product a b rest ∈ t.parts → ∀ u ∈ b :: rest, u.isDivision = false) :
    ∃ text, t.formula? = .ok text ∧ parse text = .ok t := by
  have hplain := plain_of_parse h ht hempty
  obtain ⟨hformula, hparse⟩ := parse_formula_eq (hplain.legible hordered)
  rw [hplain.reading.1] at hparse
  exact ⟨t.formula, hformula, hparse⟩

/-- For instance with a quotient as a divisor, and with signs of both kinds and sums behind them. -/
theorem parse_formula_of_parse_quotients :
    parse "x/(a/b) * -(2 + --c) - (3-d)" = .ok (sum (product
        (division (var "x") (division (var "a") (var "b")))
        (negation (sum (integer 2) (negation (negation (var "c"))) [])) [])
        (negation (sum (integer 3) (negation (var "d")) [])) []) ∧
      parse "x / (a / b) * -(2 - -c) - (3 - d)" = .ok (sum (product
        (division (var "x") (division (var "a") (var "b")))
        (negation (sum (integer 2) (negation (negation (var "c"))) [])) [])
        (negation (sum (integer 3) (negation (var "d")) [])) []) := by
  have hread : parse "x/(a/b) * -(2 + --c) - (3-d)" = .ok (sum (product
      (division (var "x") (division (var "a") (var "b")))
      (negation (sum (integer 2) (negation (negation (var "c"))) [])) [])
      (negation (sum (integer 3) (negation (var "d")) [])) []) :=
    eq_ok_of_returns rfl (by decide +kernel)
  have hordered : ∀ a b rest, product a b rest ∈ (sum (product
      (division (var "x") (division (var "a") (var "b")))
      (negation (sum (integer 2) (negation (negation (var "c"))) [])) [])
      (negation (sum (integer 3) (negation (var "d")) [])) []).parts →
        ∀ u ∈ b :: rest, u.isDivision = false := by
    intro a b rest hproduct
    simp only [parts, partsAll, List.append_nil, List.cons_append, List.nil_append, List.mem_cons,
      reduceCtorEq, nary.injEq, false_and, false_or, true_and, or_false, List.not_mem_nil]
      at hproduct
    obtain ⟨-, rfl, rfl⟩ := hproduct
    exact List.forall_mem_singleton.2 rfl
  obtain ⟨text, htext, hparse⟩ := parse_formula_of_parse hread rfl rfl hordered
  have hformula : formula? (sum (product
      (division (var "x") (division (var "a") (var "b")))
      (negation (sum (integer 2) (negation (negation (var "c"))) [])) [])
      (negation (sum (integer 3) (negation (var "d")) [])) []) =
      .ok "x / (a / b) * -(2 - -c) - (3 - d)" := by
    decide +kernel
  obtain rfl := Except.ok.inj (hformula.symm.trans htext)
  exact ⟨hread, hparse⟩

end TermAlgebra.Expr
