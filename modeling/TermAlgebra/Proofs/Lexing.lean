import Mathlib.Tactic
import TermAlgebra.Proofs.Lexemes
import TermAlgebra.Proofs.Outcome
import TermAlgebra.Token.Sign

/-!
# Spelled tokens

What cutting a text into tokens comes to, for texts that are put together from pieces.

A piece of text spells some tokens (`Spells`) if it is cut into them wherever it stands, provided
that what follows it is separated from it (`Separated`).  Spellings of single tokens do
(`Spelling.spells`), marks with anything after them (`Spells.mark`), and pieces one after the other
spell their tokens one after the other (`Spells.append`).  In any text a numeral that is too long
and a place where no token starts are the only causes of failure (`failsOnly_lex`), and the tokens
are no others than those that can be spelled like that (`Lexical` and `lexical_of_mem_lex`).
-/

namespace TermAlgebra.Token

open Outcome (FailsOnly failsOnly_ok failsOnly_error)

/-! ### Cutting texts into tokens -/

/-- A text is cut into its first token and the tokens of the rest. -/
lemma lex_eq (cs : List Char) :
    lex cs = if (Text.skipBlanks cs).isEmpty then .ok []
      else match scan (Text.skipBlanks cs) with
        | .error fault => .error fault
        | .ok none => .error (.invalidToken (String.ofList (Text.skipBlanks cs)))
        | .ok (some (token, rest)) => (lex rest).map (token :: ·) := by
  have hskip : Text.skipBlanks cs = (lex.skipped cs).1 := rfl
  rw [hskip]
  conv_lhs => rw [lex]
  by_cases hempty : (lex.skipped cs).1.isEmpty = true
  · rw [if_pos hempty, if_pos hempty]
  · rw [if_neg hempty, if_neg hempty]
    split <;> next hscan => rw [hscan]

/-- There are no tokens in an empty text. -/
lemma lex_nil : lex [] = .ok [] := by
  rw [lex_eq]
  rfl

/-- A blank at the start of a text is skipped. -/
lemma lex_blank {c : Char} (h : Text.isBlank c = true) (cs : List Char) :
    lex (c :: cs) = lex cs := by
  rw [lex_eq, lex_eq cs, Text.skipBlanks_cons, if_pos h]

/-- The first token of a text stands before those of the rest. -/
lemma lex_of_scan {c : Char} {cs rest : List Char} {token : Token}
    (hc : Text.isBlank c = false) (h : scan (c :: cs) = .ok (some (token, rest))) :
    lex (c :: cs) = (lex rest).map (token :: ·) := by
  rw [lex_eq, Text.skipBlanks_cons, hc, if_neg Bool.false_ne_true, h]
  rfl

/-- A token that is spelled at the start of a text and ends there is cut off. -/
lemma lex_of_spelling {lexeme rest : List Char} {token : Token} (h : Spelling lexeme token)
    (hrest : Ends token rest) : lex (lexeme ++ rest) = (lex rest).map (token :: ·) := by
  obtain ⟨c, cs, rfl⟩ := List.exists_cons_of_ne_nil h.ne_nil
  exact lex_of_scan (h.isBlank_head? c rfl) (scan_eq_some_iff.2 ⟨c :: cs, rfl, h, hrest⟩)

/-! ### Pieces of text -/

/-- Whether a piece of text is cut into the given tokens wherever it stands, if it is separated from
what follows. -/
def Spells (cs : List Char) (tokens : List Token) : Prop :=
  ∀ rest, Separated rest → lex (cs ++ rest) = (lex rest).map (tokens ++ ·)

/-- A text that spells tokens is cut into them. -/
lemma Spells.lex_eq_ok {cs : List Char} {tokens : List Token} (h : Spells cs tokens) :
    lex cs = .ok tokens := by
  have hlex := h [] separated_nil
  rw [List.append_nil, lex_nil] at hlex
  rw [hlex, Except.map, List.append_nil]

/-- A spelling of a token spells it. -/
lemma Spelling.spells {cs : List Char} {token : Token} (h : Spelling cs token) :
    Spells cs [token] :=
  fun _ hrest => lex_of_spelling h (ends_of_separated hrest token)

/-- Pieces of text one after the other spell their tokens one after the other. -/
lemma Spells.append {cs ds : List Char} {tokens others : List Token} (hcs : Spells cs tokens)
    (hds : Spells ds others) (hseparated : ∀ rest, Separated rest → Separated (ds ++ rest)) :
    Spells (cs ++ ds) (tokens ++ others) := by
  intro rest hrest
  rw [List.append_assoc, hcs _ (hseparated rest hrest), hds rest hrest]
  cases lex rest with
  | error fault => rfl
  | ok after => simp [Except.map]

/-- A blank before a piece of text changes nothing. -/
lemma Spells.blank {c : Char} {cs : List Char} {tokens : List Token}
    (hc : Text.isBlank c = true) (h : Spells cs tokens) : Spells (c :: cs) tokens := by
  intro rest hrest
  rw [List.cons_append, lex_blank hc, h rest hrest]

/-- A mark before a piece of text spells its token, whatever the piece starts with. -/
lemma Spells.mark {c : Char} {cs : List Char} {token : Token} {tokens : List Token}
    (hc : ofMark? c = some token) (h : Spells cs tokens) :
    Spells (c :: cs) (token :: tokens) := by
  intro rest hrest
  have hlex := lex_of_spelling (Spelling.mark hc) (ends_of_ofMark? hc (cs ++ rest))
  rw [List.singleton_append] at hlex
  rw [List.cons_append, hlex, h rest hrest]
  cases lex rest with
  | error fault => rfl
  | ok after => rfl

/-- No text spells no tokens. -/
lemma spells_nil : Spells [] [] := by
  intro rest _
  cases hlex : lex rest with
  | error fault => rw [List.nil_append, hlex]; rfl
  | ok after => rw [List.nil_append, hlex]; rfl

/-! ### Failures -/

/-- Digits that are too many for the limit are the only fault of a first token. -/
lemma failsOnly_scan (cs : List Char) :
    FailsOnly (fun fault => fault = .numeralTooLong (Numeral.digitLimit + 1)) (scan cs) := by
  cases cs with
  | nil => exact failsOnly_ok none
  | cons c rest =>
    rw [scan]
    split
    · exact failsOnly_ok _
    · split
      · rw [scanNumber]
        split
        · exact failsOnly_error rfl
        · split
          · exact failsOnly_ok _
          · exact failsOnly_ok _
      · exact failsOnly_ok _

/-- A text is cut into tokens unless no token starts somewhere or a numeral is too long. -/
lemma failsOnly_lex (cs : List Char) :
    FailsOnly (fun fault => (∃ remaining, fault = .invalidToken remaining) ∨
      fault = .numeralTooLong (Numeral.digitLimit + 1)) (lex cs) := by
  fun_induction lex cs with
  | case1 => exact failsOnly_ok []
  | case2 cs text hne fault hscan =>
    exact failsOnly_error (Or.inr (failsOnly_scan _ _ hscan))
  | case3 => exact failsOnly_error (Or.inl ⟨_, rfl⟩)
  | case4 cs text hne token rest hscan ih => exact ih.map _

/-! ### Tokens of a text -/

/-- What the tokens of a text can be: a number of digits up to the limit, a letter with letters and
digits after it, or a token that is neither an integer nor a name. -/
inductive Lexical : Token → Prop
  | integer (digits : List Char) : (∀ c ∈ digits, Numeral.isDigit c = true) →
      digits.length ≤ Numeral.digitLimit → Lexical (.integer (Numeral.value digits))
  | name (c : Char) (cs : List Char) : c.isAlpha = true → (∀ d ∈ cs, isNamePart d = true) →
      Lexical (.name (String.ofList (c :: cs)))
  | decimal (d : Decimal) : Lexical (.decimal d)
  | operator (op : Operator) : Lexical (.operator op)
  | paren (side : Paren) : Lexical (.paren side)

/-- A token that is spelled. -/
lemma Spelling.lexical {cs : List Char} {token : Token} (h : Spelling cs token) :
    Lexical token := by
  cases h with
  | name hc hcs => exact .name _ _ hc hcs
  | integer _ hdigits hlimit => exact .integer _ hdigits hlimit
  | decimal => exact .decimal _
  | mark hmark =>
    cases token with
    | operator op => exact .operator op
    | paren side => exact .paren side
    | _ => exact nomatch isOperand_of_ofMark? hmark

/-- All tokens of a text. -/
lemma lexical_of_mem_lex (cs : List Char) :
    ∀ tokens, lex cs = .ok tokens → ∀ t ∈ tokens, Lexical t := by
  fun_induction lex cs with
  | case1 =>
    rintro _ ⟨⟩ t ht
    exact absurd ht List.not_mem_nil
  | case2 => exact nofun
  | case3 => exact nofun
  | case4 cs text hne token rest hscan ih =>
    intro tokens h
    obtain ⟨others, hothers, rfl⟩ := Outcome.map_eq_ok_iff.1 h
    obtain ⟨_, _, hspelling, _⟩ := scan_eq_some_iff.1 hscan
    exact List.forall_mem_cons.2 ⟨hspelling.lexical, ih others hothers⟩

/-- Telling signs apart changes operators only. -/
lemma lexical_of_mem_resolveAfter {tokens : List Token} (h : ∀ t ∈ tokens, Lexical t)
    (previous : Option Token) : ∀ t ∈ resolveAfter previous tokens, Lexical t := by
  induction tokens generalizing previous with
  | nil => exact fun t ht => absurd ht List.not_mem_nil
  | cons token tokens ih =>
    rw [List.forall_mem_cons] at h
    rw [resolveAfter, List.forall_mem_cons]
    refine ⟨?_, ih h.2 _⟩
    cases token with
    | operator op =>
      rw [resolved]
      split <;> exact .operator _
    | _ => exact h.1

end TermAlgebra.Token
