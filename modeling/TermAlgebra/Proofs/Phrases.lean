import Mathlib.Tactic
import TermAlgebra.Expr.Formula
import TermAlgebra.Proofs.Grammar
import TermAlgebra.Proofs.Lexing

/-!
# Phrases as texts

A text is a phrase of a level of the grammar for a tree if it spells tokens that the grammar derives
the tree from (`Grammar.Phrase`).  There is one lemma for each way to put phrases together: signs,
parentheses, and the four operators between two phrases.  The text of an expression stands at the
level of its topmost operator (`Expr.phraseLevel`) and is put in parentheses where a tighter level
is wanted (`Expr.phrase_enclosed`).  A phrase for an expression is read as its tree
(`Grammar.Phrase.parse_eq`).
-/

namespace TermAlgebra

/-! ### Texts that are put together -/

namespace Token

/-- Two pieces of text with a mark between blanks between them. -/
lemma Spells.between {cs ds : List Char} {tokens others : List Token} {c : Char} {token : Token}
    (hcs : Spells cs tokens) (hds : Spells ds others) (hc : ofMark? c = some token) :
    Spells (cs ++ ' ' :: c :: ' ' :: ds) (tokens ++ token :: others) := by
  have hblank : Text.isBlank ' ' = true := rfl
  refine hcs.append (((hds.blank hblank).mark hc).blank hblank) fun rest _ => ?_
  exact separated_cons ⟨rfl, by decide⟩

/-- A piece of text in parentheses. -/
lemma Spells.parenthesized {cs : List Char} {tokens : List Token} (h : Spells cs tokens) :
    Spells ('(' :: cs ++ [')']) (.paren .left :: tokens ++ [.paren .right]) := by
  have hclose : Spells [')'] [.paren .right] := Spells.mark rfl spells_nil
  exact (h.append hclose fun rest _ => separated_cons ⟨rfl, by decide⟩).mark rfl

end Token

namespace Grammar

/-- There are four levels, so what concerns all of them can be decided. -/
instance : Fintype Level :=
  ⟨{.expression, .term, .signed, .operand}, fun level => by cases level <;> decide⟩

/-- A phrase is a phrase of every looser level. -/
lemma Derives.loosen {level tighter : Level} (hlevel : level.precedence ≤ tighter.precedence)
    {ts : List Token} {e : Expr} (h : Derives tighter ts e) : Derives level ts e := by
  cases tighter with
  | expression =>
    cases level with
    | expression => exact h
    | _ => exact absurd hlevel (by decide)
  | term =>
    cases level with
    | expression => exact .term h
    | term => exact h
    | _ => exact absurd hlevel (by decide)
  | signed =>
    cases level with
    | expression => exact .term (.signed h)
    | term => exact .signed h
    | signed => exact h
    | operand => exact absurd hlevel (by decide)
  | operand =>
    cases level with
    | expression => exact .term (.signed (.operand h))
    | term => exact .signed (.operand h)
    | signed => exact .operand h
    | operand => exact h

/-- Whether a text spells a phrase of a level that stands for a tree. -/
def Phrase (level : Level) (text : String) (e : Expr) : Prop :=
  ∃ tokens, Token.Spells text.toList tokens ∧ Derives level tokens e

namespace Phrase

variable {level : Level} {s t : String} {e l r : Expr}

/-- What is a phrase of a level is one of every looser level. -/
lemma loosen {tighter : Level} (hlevel : level.precedence ≤ tighter.precedence)
    (h : Phrase tighter s e) : Phrase level s e := by
  obtain ⟨tokens, hspells, hderives⟩ := h
  exact ⟨tokens, hspells, hderives.loosen hlevel⟩

/-- An expression in parentheses is an operand. -/
lemma parenthesized (h : Phrase .expression s e) : Phrase .operand ("(" ++ s ++ ")") e := by
  obtain ⟨tokens, hspells, hderives⟩ := h
  refine ⟨_, ?_, .enclosed hderives⟩
  simpa using hspells.parenthesized

/-- A sign before a signed operand negates it. -/
lemma negated (h : Phrase .signed s e) : Phrase .signed ("-" ++ s) (.negation e) := by
  obtain ⟨tokens, hspells, hderives⟩ := h
  refine ⟨_, ?_, .negative hderives⟩
  simpa using hspells.mark (c := '-') rfl

/-- A term multiplied by a signed operand. -/
lemma times (hl : Phrase .term s l) (hr : Phrase .signed t r) :
    Phrase .term (s ++ " * " ++ t) (.join .product l r) := by
  obtain ⟨ts, hs, hderives⟩ := hl
  obtain ⟨us, ht, hderives'⟩ := hr
  refine ⟨_, ?_, hderives.multiply hderives'⟩
  simpa using hs.between ht (c := '*') rfl

/-- A term divided by a signed operand. -/
lemma dividedBy (hl : Phrase .term s l) (hr : Phrase .signed t r) :
    Phrase .term (s ++ " / " ++ t) (.division l r) := by
  obtain ⟨ts, hs, hderives⟩ := hl
  obtain ⟨us, ht, hderives'⟩ := hr
  refine ⟨_, ?_, hderives.divide hderives'⟩
  simpa using hs.between ht (c := '/') rfl

/-- A term added to an expression. -/
lemma plus (hl : Phrase .expression s l) (hr : Phrase .term t r) :
    Phrase .expression (s ++ (" + " ++ t)) (.join .sum l r) := by
  obtain ⟨ts, hs, hderives⟩ := hl
  obtain ⟨us, ht, hderives'⟩ := hr
  refine ⟨_, ?_, hderives.add hderives'⟩
  simpa using hs.between ht (c := '+') rfl

/-- A term subtracted from an expression. -/
lemma minus (hl : Phrase .expression s l) (hr : Phrase .term t r) :
    Phrase .expression (s ++ (" - " ++ t)) (.join .sum l (.negation r)) := by
  obtain ⟨ts, hs, hderives⟩ := hl
  obtain ⟨us, ht, hderives'⟩ := hr
  refine ⟨_, ?_, hderives.subtract hderives'⟩
  simpa using hs.between ht (c := '-') rfl

/-- A phrase for an expression is read as its tree. -/
lemma parse_eq (h : Phrase .expression s e) : Expr.parse s = .ok e := by
  obtain ⟨tokens, hspells, hderives⟩ := h
  obtain ⟨resolved, waiting, operands, hreads⟩ := hderives.exists_reads
  rw [Expr.parse, Token.ofText, hspells.lex_eq_ok]
  exact hreads.assemble_eq

end Phrase

/-- A name is an operand. -/
lemma phrase_name {c : Char} {cs : List Char} (hc : c.isAlpha = true)
    (hcs : ∀ d ∈ cs, Token.isNamePart d = true) :
    Phrase .operand (String.ofList (c :: cs)) (.var (String.ofList (c :: cs))) := by
  refine ⟨_, ?_, .name _⟩
  rw [String.toList_ofList]
  exact (Token.Spelling.name hc hcs).spells

/-- The digits of a number that is not too long are an operand. -/
lemma phrase_numeral {n : ℕ} (h : (Numeral.digits n).length ≤ Numeral.digitLimit) :
    Phrase .operand (Numeral.text n) (.integer n) := by
  have htext : (Numeral.text n).toList = Numeral.digits n := by
    rw [Numeral.text, if_neg (by omega), String.toList_ofList, Int.natAbs_natCast]
  have hne : Numeral.digits n ≠ [] := List.length_pos_iff.1 (Numeral.length_digits_pos n)
  have hspelling := Token.Spelling.integer hne Numeral.isDigit_of_mem_digits h
  rw [Numeral.value_digits] at hspelling
  refine ⟨[.integer n], ?_, .integer n⟩
  rw [htext]
  exact hspelling.spells

end Grammar

namespace Expr

open Grammar (Level Phrase)

/-! ### Enclosed texts -/

/-- The level of the phrases that an expression is written as. -/
def phraseLevel : Expr → Level
  | sum .. => .expression
  | product .. | division .. => .term
  | _ => .signed

/-- A text that is left without parentheses binds tightly enough. -/
lemma le_precedence_of_bindsLooser {e : Expr} {precedence : ℕ} {inclusive : Bool}
    (h : e.bindsLooser precedence inclusive = false) :
    e.phraseLevel = .signed ∨
      (if inclusive then precedence + 1 else precedence) ≤ e.phraseLevel.precedence := by
  have hnot : ∀ own, e.precedence? = some own →
      (if inclusive then precedence + 1 else precedence) ≤ own := by
    intro own hown
    rw [bindsLooser, hown] at h
    cases inclusive <;> simp at h ⊢ <;> omega
  cases e with
  | nary op a b rest => cases op <;> exact Or.inr (hnot _ rfl)
  | division l r => exact Or.inr (hnot _ rfl)
  | _ => exact Or.inl rfl

section Enclosed

variable {e tree : Expr} {text : String} (h : Phrase e.phraseLevel text tree)

include h

/-- What is written for an expression is a phrase for an expression. -/
lemma phrase_expression : Phrase .expression text tree := by
  refine h.loosen ?_
  cases e.phraseLevel <;> decide

/-- A text that is put in parentheses where necessary is a phrase of a level. -/
lemma phrase_enclosed {level : Level} {precedence : ℕ} {inclusive : Bool}
    (hlevel : ∀ own : Level, own = .signed ∨
      (if inclusive then precedence + 1 else precedence) ≤ own.precedence →
        level.precedence ≤ own.precedence) :
    Phrase level (enclosed precedence inclusive e text) tree := by
  unfold enclosed
  split
  · refine (phrase_expression h).parenthesized.loosen ?_
    cases level <;> decide
  · next hbinds =>
    exact h.loosen (hlevel _ (le_precedence_of_bindsLooser (Bool.eq_false_iff.2 hbinds)))

/-- The text of a factor is a term. -/
lemma phrase_factorText : Phrase .term (factorText (e, text)) tree :=
  phrase_enclosed h (by decide)

end Enclosed

end Expr

end TermAlgebra
