import Mathlib.Tactic
import TermAlgebra.Proofs.Conservation
import TermAlgebra.Proofs.LongestMatch
import TermAlgebra.Proofs.Magnitude

/-!
# Short lines

How large the integers in an expression can become, judged by the text it is read from.

The width of a tree is the number of digits of its magnitude.  A sum or product has at most as many
digits as its terms have together, so that a tree is not wider than its leaves are together
(`Expr.width_le_sum_leaves`).  The leaves of an expression that was read are spelled by pieces of
the text one after the other, and without a decimal point no piece is shorter than its leaf is wide
(`Token.operands_of_lex`).  So a text without a decimal point that is not longer than a numeral may
be has no numeral that is too long, and the expression read from it can be simplified
(`Expr.exists_simplify_of_short`).
-/

namespace TermAlgebra

open Outcome (FailsOnly failsOnly_ok failsOnly_error)

/-! ### Numbers of digits -/

namespace Numeral

/-- A number has so many digits at most if it is less than that power of ten. -/
lemma length_digits_le_iff {n k : ℕ} (hk : 0 < k) : (digits n).length ≤ k ↔ n < 10 ^ k :=
  Nat.length_toDigits_le_iff (by decide) hk

/-- A number that has digits up to the limit can be written. -/
lemma fits_of_length_digits_le {n : ℕ} (h : (digits n).length ≤ digitLimit) : fits n = true :=
  (fits_iff_length_digits_le n).2 h

end Numeral

/-- The sum or product of two numbers has at most as many digits as they have together. -/
lemma AssocOp.length_digits_total_pair_le (op : AssocOp) (a b : ℕ) :
    (Numeral.digits (op.total [a, b])).length ≤
      (Numeral.digits a).length + (Numeral.digits b).length := by
  have ha := Numeral.lt_pow_length_digits a
  have hb := Numeral.lt_pow_length_digits b
  have hi := Numeral.length_digits_pos a
  have hj := Numeral.length_digits_pos b
  rw [Numeral.length_digits_le_iff (Nat.add_pos_left hi _), pow_add]
  cases op with
  | sum =>
    rw [AssocOp.total_sum, List.sum_pair]
    have htwo : ∀ {k}, 0 < k → 2 ≤ 10 ^ k :=
      fun hk => le_trans (by decide) (Nat.pow_le_pow_right (n := 10) (by decide) hk)
    exact (Nat.add_lt_add ha hb).trans_le (Nat.add_le_mul (htwo hi) (htwo hj))
  | product =>
    rw [AssocOp.total_product, List.prod_pair]
    exact Nat.mul_lt_mul'' ha hb

/-! ### Widths of trees -/

namespace Expr

/-- The number of digits of the magnitude of an expression. -/
def width (e : Expr) : ℕ :=
  (Numeral.digits e.magnitude).length

/-- A sum or product has at most as many digits as its terms have together. -/
lemma length_digits_total_le (op : AssocOp) {es : List Expr} (hne : es ≠ []) :
    (Numeral.digits (op.total (es.map magnitude))).length ≤ (es.map width).sum := by
  induction es with
  | nil => exact absurd rfl hne
  | cons e es ih =>
    by_cases hes : es = []
    · rw [hes, List.map_singleton, List.map_singleton, AssocOp.total_singleton, List.sum_singleton,
        width]
    · rw [List.map_cons, AssocOp.total_cons, List.map_cons, List.sum_cons]
      exact (op.length_digits_total_pair_le _ _).trans (Nat.add_le_add_left (ih hes) _)

/-- An exact tree is not wider than its leaves are together. -/
lemma width_le_sum_leaves {e : Expr} (he : e.isExact = true) :
    e.width ≤ (e.leaves.map width).sum := by
  induction e using Expr.induction with
  | empty => exact Bool.noConfusion he
  | negation e ih =>
    rw [leaves_negation]
    exact ih ((hereditary_isExact.negation e).1 he)
  | nary op a b rest ih =>
    rw [hereditary_isExact.nary] at he
    rw [leaves_nary, List.map_flatMap, List.flatMap_def, List.sum_flatten, List.map_map, width,
      magnitude_nary]
    refine (length_digits_total_le op (List.cons_ne_nil _ _)).trans ?_
    exact List.sum_le_sum fun t ht => ih t ht (he t ht)
  | division l r hl hr =>
    rw [isExact_division_iff] at he
    rw [leaves_division, List.map_append, List.sum_append]
    have hpair := AssocOp.product.length_digits_total_pair_le l.magnitude r.magnitude
    rw [AssocOp.total_product, List.prod_pair] at hpair
    exact hpair.trans (Nat.add_le_add (hl he.1) (hr he.2))
  | parentheses e ih => exact ih (isExact_parentheses_iff.1 he)
  | _ => exact le_rfl

end Expr

/-! ### Widths of what is spelled -/

namespace Token

/-- A piece of text without a decimal point that spells an operand is not shorter than the operand
is wide. -/
lemma Spelling.width_le {cs : List Char} {token : Token} (h : Spelling cs token)
    (hpoint : '.' ∉ cs) {e : Expr} (he : Expr.ofToken? token = some e) :
    e.isExact = true ∧ e.width ≤ cs.length := by
  have hpos := List.length_pos_iff.2 h.ne_nil
  have hone : 1 < 10 ^ cs.length := Nat.one_lt_pow hpos.ne' (by decide)
  cases h with
  | name _ _ =>
    obtain rfl := Option.some.inj he
    exact ⟨rfl, (Numeral.length_digits_le_iff hpos).2 hone⟩
  | integer _ hdigits _ =>
    obtain rfl := Option.some.inj he
    have hvalue := max_lt hone (Numeral.value_lt hdigits)
    exact ⟨rfl, (Numeral.length_digits_le_iff hpos).2 hvalue⟩
  | decimal => simp at hpoint
  | mark hmark =>
    cases token with
    | operator op => exact nomatch he
    | paren side => exact nomatch he
    | _ => exact nomatch isOperand_of_ofMark? hmark

/-- The operands that are cut from a text without a decimal point are exact, and together they are
not wider than the text is long. -/
lemma operands_of_lex (cs : List Char) : '.' ∉ cs → ∀ tokens, lex cs = .ok tokens →
    (∀ e ∈ tokens.filterMap Expr.ofToken?, e.isExact = true) ∧
      ((tokens.filterMap Expr.ofToken?).map Expr.width).sum ≤ cs.length := by
  fun_induction lex cs with
  | case1 =>
    intro _ tokens h
    obtain rfl := Except.ok.inj h
    exact ⟨fun e he => absurd he List.not_mem_nil, Nat.zero_le _⟩
  | case2 =>
    intro _ tokens h
    cases h
  | case3 =>
    intro _ tokens h
    cases h
  | case4 cs text hne token rest hscan ih =>
    intro hpoint tokens h
    obtain ⟨others, hothers, rfl⟩ := Outcome.map_eq_ok_iff.1 h
    obtain ⟨lexeme, htext, hspelling, _⟩ := scan_eq_some_iff.1 hscan
    have hsub : lexeme ++ rest <:+ cs := htext ▸ List.dropWhile_suffix _
    have hlength := hsub.length_le
    rw [List.length_append] at hlength
    have hfree : '.' ∉ lexeme ∧ '.' ∉ rest := by
      rw [← not_or, ← List.mem_append]
      exact fun hmem => hpoint (hsub.subset hmem)
    obtain ⟨hexact, hsum⟩ := ih hfree.2 others hothers
    cases htoken : Expr.ofToken? token with
    | none =>
      rw [List.filterMap_cons_none htoken]
      exact ⟨hexact, by omega⟩
    | some e =>
      obtain ⟨he, hwidth⟩ := hspelling.width_le hfree.1 htoken
      rw [List.filterMap_cons_some htoken, List.forall_mem_cons, List.map_cons, List.sum_cons]
      exact ⟨⟨he, hexact⟩, by omega⟩

/-- Telling signs apart does not touch the operands. -/
lemma operands_resolveAfter (previous : Option Token) (tokens : List Token) :
    (resolveAfter previous tokens).filterMap Expr.ofToken? =
      tokens.filterMap Expr.ofToken? := by
  induction tokens generalizing previous with
  | nil => rfl
  | cons token tokens ih =>
    have htoken : Expr.ofToken? (token.resolved previous) = Expr.ofToken? token := by
      cases token with
      | operator op =>
        rw [resolved]
        split <;> rfl
      | _ => rfl
    rw [resolveAfter, List.filterMap_cons, List.filterMap_cons, htoken, ih]

/-- A text that is not longer than a numeral may be is cut into tokens unless no token starts
somewhere. -/
lemma failsOnly_lex_of_short (cs : List Char) : cs.length ≤ Numeral.digitLimit →
    FailsOnly (fun fault => ∃ remaining, fault = .invalidToken remaining) (lex cs) := by
  have htext : ∀ cs : List Char, (lex.skipped cs).1.length ≤ cs.length := fun cs =>
    (lex.skipped cs).2
  fun_induction lex cs with
  | case1 => exact fun _ => failsOnly_ok []
  | case2 cs text hne fault hscan =>
    intro hlength
    have hdigits := (scan_eq_error_iff.1 hscan).2
    have hrun := (List.takeWhile_sublist Numeral.isDigit).length_le.trans (htext cs)
    exact absurd (hrun.trans hlength) (Nat.not_le.2 hdigits)
  | case3 => exact fun _ => failsOnly_error ⟨_, rfl⟩
  | case4 cs text hne token rest hscan ih =>
    intro hlength
    have hrest := (length_lt_of_scan hscan).le.trans (htext cs)
    exact (ih (hrest.trans hlength)).map _

end Token

/-! ### Reading and simplifying -/

namespace Expr

/-- An expression that is read from a text without a decimal point is empty or exact, and it is not
wider than the text is long. -/
lemma width_le_of_parse {text : String} (hpoint : '.' ∉ text.toList) {e : Expr}
    (h : parse text = .ok e) :
    e = .empty ∨ e.isExact = true ∧ e.width ≤ text.length := by
  obtain ⟨tokens, htokens, he⟩ := Outcome.bind_eq_ok_iff.1 h
  obtain ⟨lexed, hlex, rfl⟩ := Outcome.map_eq_ok_iff.1 htokens
  obtain ⟨hoperands, hsum⟩ := Token.operands_of_lex _ hpoint lexed hlex
  have hleaves := (Assembly.leaves_and_price_of_assemble he).1
  rw [Token.resolveSigns, Token.operands_resolveAfter] at hleaves
  have hexact := Assembly.result_invariant (P := fun e => e.isExact = true)
    (fun e => (hereditary_isExact.negation e).2)
    (fun op l r hl hr => (hereditary_isExact.join op l r).2 ⟨hl, hr⟩)
    (fun l r hl hr => isExact_division_iff.2 ⟨hl, hr⟩) (fun t ht e htoken => ?_) he
  · refine hexact.imp_right fun hexact => ⟨hexact, ?_⟩
    rw [← String.length_toList]
    exact (width_le_sum_leaves hexact).trans (hleaves ▸ hsum)
  · refine hoperands e ?_
    rw [← Token.operands_resolveAfter none]
    exact List.mem_filterMap.2 ⟨t, ht, htoken⟩

/-- An expression can be simplified that is read from a text without a decimal point which is not
longer than a numeral may be. -/
theorem exists_simplify_of_short {text : String} (hpoint : '.' ∉ text.toList)
    (hlength : text.length ≤ Numeral.digitLimit) {e : Expr} (h : parse text = .ok e) :
    ∃ r, e.simplify = .ok r := by
  rcases width_le_of_parse hpoint h with rfl | ⟨hexact, hwidth⟩
  · exact ⟨.empty, rfl⟩
  · obtain ⟨r, hr, -, -⟩ := exists_simplify_of_magnitude hexact
      (Numeral.fits_of_length_digits_le (hwidth.trans hlength))
    exact ⟨r, hr⟩

end Expr

end TermAlgebra
