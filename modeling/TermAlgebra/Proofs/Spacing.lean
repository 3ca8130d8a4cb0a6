import Mathlib.Tactic
import TermAlgebra.Proofs.Lexing

/-!
# Spacing

How texts are put together from lexemes and blanks.

A `Word` is a lexeme with the blanks before it, and a text that is cut into tokens consists of words
and an ending of blanks (`spaced`).  Blanks are needed between two operands only: a text in which
operands are kept apart like that is cut into its lexemes (`ofText_spaced`).  Conversely every text
is used up to its end or to a place where no token starts: reading advances from word to word
(`Advances`), and what has been read up to a place is what is read if the text ends there
(`Advances.exists_consumed`), so nothing of a text is left out (`ofText_accounts`).  Nor does it
matter what stands behind a text that is cut into tokens, as long as it is separated from the text
(`spells_of_lex`).
-/

namespace TermAlgebra.Token

/-! ### Words -/

/-- A lexeme is a text that spells a token and starts with no more digits than the limit. -/
structure Lexeme where
  chars : List Char
  token : Token
  ofLexeme?_eq : ofLexeme? chars = .ok (some token)
  length_takeWhile_le : (chars.takeWhile Numeral.isDigit).length ≤ Numeral.digitLimit

/-- A word is a lexeme with the blanks before it. -/
structure Word extends Lexeme where
  blanks : List Char
  isBlank : ∀ c ∈ blanks, Text.isBlank c = true

/-- The characters of a lexeme are a spelling of its token. -/
lemma Lexeme.spelling (l : Lexeme) : Spelling l.chars l.token :=
  spelling_of_ofLexeme? l.ofLexeme?_eq l.length_takeWhile_le

/-- A spelling of a token is a lexeme. -/
def Spelling.lexeme {cs : List Char} {token : Token} (h : Spelling cs token) : Lexeme :=
  ⟨cs, token, h.ofLexeme?_eq, h.length_takeWhile_le⟩

/-- The text of some words and an ending. -/
def spaced (words : List Word) (ending : List Char) : List Char :=
  words.flatMap (fun w => w.blanks ++ w.chars) ++ ending

/-- The text of a first word and others. -/
lemma spaced_cons (w : Word) (words : List Word) (ending : List Char) :
    spaced (w :: words) ending = w.blanks ++ (w.chars ++ spaced words ending) := by
  rw [spaced, List.flatMap_cons, List.append_assoc, List.append_assoc]
  rfl

/-- Whether there are blanks between any two operands that follow each other. -/
def KeptApart (words : List Word) : Prop :=
  words.IsChain fun w v => w.token.isOperand = true → v.token.isOperand = true → v.blanks ≠ []

/-! ### Cutting words -/

/-- Blanks at the start of a text are skipped. -/
lemma lex_append_of_blanks {blanks : List Char} (h : ∀ c ∈ blanks, Text.isBlank c = true)
    (cs : List Char) : lex (blanks ++ cs) = lex cs := by
  induction blanks with
  | nil => rfl
  | cons c blanks ih =>
    rw [List.forall_mem_cons] at h
    rw [List.cons_append, lex_blank h.1, ih h.2]

/-- There are no tokens in blanks. -/
lemma lex_of_blanks {blanks : List Char} (h : ∀ c ∈ blanks, Text.isBlank c = true) :
    lex blanks = .ok [] := by
  have hlex := lex_append_of_blanks h []
  rwa [List.append_nil, lex_nil] at hlex

/-- A text that starts with a blank is separated from what stands before it, and so is an empty
one. -/
lemma separated_append_of_blanks {blanks rest : List Char}
    (h : ∀ c ∈ blanks, Text.isBlank c = true) (hrest : blanks = [] → Separated rest) :
    Separated (blanks ++ rest) := by
  cases blanks with
  | nil => exact hrest rfl
  | cons c blanks => exact separated_cons (isNamePart_of_isBlank (h c List.mem_cons_self))

/-- What is no operand is spelled by a mark. -/
lemma Spelling.separated {cs : List Char} {token : Token} (h : Spelling cs token)
    (htoken : token.isOperand = false) (rest : List Char) : Separated (cs ++ rest) := by
  cases h with
  | mark hmark => exact separated_cons (isNamePart_of_ofMark? hmark)
  | _ => exact Bool.noConfusion htoken

/-- An operand ends before the words after it if they are kept apart from it. -/
lemma ends_spaced {w : Word} {words : List Word} {ending : List Char}
    (hapart : KeptApart (w :: words)) (hending : ∀ c ∈ ending, Text.isBlank c = true) :
    Ends w.token (spaced words ending) := by
  cases hw : w.token.isOperand with
  | false => exact ends_of_not_isOperand hw _
  | true =>
    refine ends_of_separated ?_ w.token
    cases words with
    | nil =>
      rw [← List.append_nil (spaced [] ending)]
      exact separated_append_of_blanks hending fun _ => separated_nil
    | cons v words =>
      rw [spaced_cons]
      refine separated_append_of_blanks v.isBlank fun hblanks => v.spelling.separated ?_ _
      rw [Bool.eq_false_iff]
      exact fun hv => (List.isChain_cons_cons.1 hapart).1 hw hv hblanks

/-- Words that are kept apart are cut into their tokens. -/
lemma lex_spaced {words : List Word} {ending : List Char} (hapart : KeptApart words)
    (hending : ∀ c ∈ ending, Text.isBlank c = true) :
    lex (spaced words ending) = .ok (words.map fun w => w.token) := by
  induction words with
  | nil => exact lex_of_blanks hending
  | cons w words ih =>
    rw [spaced_cons, lex_append_of_blanks w.isBlank,
      lex_of_spelling w.spelling (ends_spaced hapart hending), ih hapart.tail]
    rfl

/-- Spacing is free: with any blanks before, between and after lexemes, as long as there are some
between two operands, the tokens of a text are those of its lexemes with the signs told apart. -/
theorem ofText_spaced {words : List Word} {ending : List Char} (hapart : KeptApart words)
    (hending : ∀ c ∈ ending, Text.isBlank c = true) :
    ofText (String.ofList (spaced words ending)) =
      .ok (resolveSigns (words.map fun w => w.token)) := by
  rw [ofText, String.toList_ofList, lex_spaced hapart hending]
  rfl

/-- For instance with blanks of several kinds, and none beside a parenthesis or an operator. -/
theorem ofText_spaced_tabs :
    ofText "\t.5*-(x1 \u00a012 )\n" = .ok [.decimal (.ofLiteral [] ['5']), .operator .times,
      .operator .unaryMinus, .paren .left, .name "x1", .integer 12, .paren .right] := by
  have hpoint : Spelling ([] ++ ['.', '5']) (.decimal (.ofLiteral [] ['5'])) :=
    .decimal nofun (Nat.zero_le _) (List.cons_ne_nil '5' []) (List.all_eq_true.1 rfl)
  have hname : Spelling ['x', '1'] (.name (String.ofList ['x', '1'])) :=
    .name rfl (List.all_eq_true.1 rfl)
  have hnumeral : Spelling ['1', '2'] (.integer (Numeral.value ['1', '2'])) :=
    .integer (List.cons_ne_nil '1' ['2']) (List.all_eq_true.1 rfl) (by decide +kernel)
  have htimes : Spelling ['*'] (.operator .times) := .mark rfl
  have hminus : Spelling ['-'] (.operator .minus) := .mark rfl
  have hleft : Spelling ['('] (.paren .left) := .mark rfl
  have hright : Spelling [')'] (.paren .right) := .mark rfl
  have hapart : KeptApart [⟨hpoint.lexeme, ['\t'], List.all_eq_true.1 rfl⟩,
      ⟨htimes.lexeme, [], nofun⟩, ⟨hminus.lexeme, [], nofun⟩, ⟨hleft.lexeme, [], nofun⟩,
      ⟨hname.lexeme, [], nofun⟩, ⟨hnumeral.lexeme, [' ', '\u00a0'], List.all_eq_true.1 rfl⟩,
      ⟨hright.lexeme, [' '], List.all_eq_true.1 rfl⟩] := by
    simp [KeptApart, Spelling.lexeme, isOperand]
  have hending : ∀ c ∈ ['\n'], Text.isBlank c = true := List.all_eq_true.1 rfl
  have htokens := ofText_spaced hapart hending
  rwa [show spaced _ _ = "\t.5*-(x1 \u00a012 )\n".toList from rfl,
    String.ofList_toList] at htokens

/-! ### Reading on -/

/-- Reading tokens leads from a text to the rest that is left of it, blanks skipped. -/
inductive Advances : List Char → List Token → List Char → Prop
  | stop (cs : List Char) : Advances cs [] (Text.skipBlanks cs)
  | token {cs rest remaining : List Char} {token : Token} {tokens : List Token} :
      scan (Text.skipBlanks cs) = .ok (some (token, rest)) → Advances rest tokens remaining →
        Advances cs (token :: tokens) remaining

/-- The blanks that are skipped at the start of a text. -/
lemma exists_blanks (cs : List Char) :
    ∃ blanks, (∀ c ∈ blanks, Text.isBlank c = true) ∧ cs = blanks ++ Text.skipBlanks cs :=
  ⟨cs.takeWhile Text.isBlank, List.all_eq_true.1 List.all_takeWhile,
    List.takeWhile_append_dropWhile.symm⟩

/-- What is left does not start with a blank. -/
lemma Advances.isBlank_head? {cs remaining : List Char} {tokens : List Token}
    (h : Advances cs tokens remaining) : ∀ c ∈ remaining.head?, Text.isBlank c = false := by
  induction h with
  | stop cs => exact head?_dropWhile cs
  | token _ _ ih => exact ih

/-- Reading up to a place gives the tokens of the text before it. -/
lemma Advances.exists_consumed {cs remaining : List Char} {tokens : List Token}
    (h : Advances cs tokens remaining) :
    ∃ consumed, cs = consumed ++ remaining ∧ lex consumed = .ok tokens := by
  induction h with
  | stop cs =>
    obtain ⟨blanks, hblanks, happend⟩ := exists_blanks cs
    exact ⟨blanks, happend, lex_of_blanks hblanks⟩
  | @token cs rest remaining token tokens hscan _ ih =>
    obtain ⟨consumed, rfl, hlex⟩ := ih
    obtain ⟨blanks, hblanks, happend⟩ := exists_blanks cs
    obtain ⟨lexeme, htext, hspelling, hends⟩ := scan_eq_some_iff.1 hscan
    refine ⟨blanks ++ (lexeme ++ consumed), ?_, ?_⟩
    · rw [List.append_assoc, List.append_assoc, ← htext]
      exact happend
    · -- The token still ends where it ended before the text was cut off.
      rw [lex_append_of_blanks hblanks, lex_of_spelling hspelling hends.of_append, hlex]
      rfl

/-- A text that is cut into tokens consists of words with these tokens. -/
lemma exists_words_of_lex {cs : List Char} :
    ∀ tokens, lex cs = .ok tokens → ∃ words ending, (∀ c ∈ ending, Text.isBlank c = true) ∧
      cs = spaced words ending ∧ words.map (fun w => w.token) = tokens := by
  fun_induction lex cs with
  | case1 cs text hempty =>
    rintro _ ⟨⟩
    obtain ⟨blanks, hblanks, happend⟩ := exists_blanks cs
    have hskip : Text.skipBlanks cs = [] := List.isEmpty_iff.1 hempty
    rw [hskip, List.append_nil] at happend
    exact ⟨[], blanks, hblanks, happend, rfl⟩
  | case2 => rintro _ ⟨⟩
  | case3 => rintro _ ⟨⟩
  | case4 cs text hne token rest hscan ih =>
    intro tokens h
    obtain ⟨others, hothers, rfl⟩ := Outcome.map_eq_ok_iff.1 h
    obtain ⟨words, ending, hending, hrest, hwords⟩ := ih others hothers
    obtain ⟨blanks, hblanks, happend⟩ := exists_blanks cs
    obtain ⟨lexeme, htext, hspelling, -⟩ := scan_eq_some_iff.1 hscan
    refine ⟨⟨hspelling.lexeme, blanks, hblanks⟩ :: words, ending, hending, ?_, ?_⟩
    · rw [spaced_cons, ← hrest]
      exact happend.trans (congrArg (blanks ++ ·) htext)
    · rw [List.map_cons, hwords]
      rfl

/-- Blanks spell no tokens. -/
lemma spells_of_blanks {blanks : List Char} (h : ∀ c ∈ blanks, Text.isBlank c = true) :
    Spells blanks [] := by
  induction blanks with
  | nil => exact spells_nil
  | cons c blanks ih =>
    rw [List.forall_mem_cons] at h
    exact (ih h.2).blank h.1

/-- A text that is cut into tokens spells them. -/
lemma spells_of_lex {cs : List Char} : ∀ tokens, lex cs = .ok tokens → Spells cs tokens := by
  fun_induction lex cs with
  | case1 cs text hempty =>
    rintro _ ⟨⟩
    obtain ⟨blanks, hblanks, happend⟩ := exists_blanks cs
    have hskip : Text.skipBlanks cs = [] := List.isEmpty_iff.1 hempty
    rw [hskip, List.append_nil] at happend
    exact happend ▸ spells_of_blanks hblanks
  | case2 => rintro _ ⟨⟩
  | case3 => rintro _ ⟨⟩
  | case4 cs text hne token rest hscan ih =>
    intro tokens h tail htail
    obtain ⟨others, hothers, rfl⟩ := Outcome.map_eq_ok_iff.1 h
    obtain ⟨blanks, hblanks, happend⟩ := exists_blanks cs
    obtain ⟨lexeme, htext, hspelling, hends⟩ := scan_eq_some_iff.1 hscan
    have hcs : cs = blanks ++ (lexeme ++ rest) := happend.trans (congrArg (blanks ++ ·) htext)
    -- The first token still ends where it ended before the tail was added.
    rw [hcs, List.append_assoc, List.append_assoc, lex_append_of_blanks hblanks,
      lex_of_spelling hspelling (hends.append htail), ih others hothers tail htail]
    cases lex tail with
    | error fault => rfl
    | ok after => rfl

/-- A text that is not cut into tokens to its end is read up to a place where no token starts. -/
lemma exists_advances_of_lex {cs : List Char} {remaining : String} :
    lex cs = .error (.invalidToken remaining) → ∃ tokens, Advances cs tokens remaining.toList ∧
      remaining.toList ≠ [] ∧ scan remaining.toList = .ok none := by
  fun_induction lex cs with
  | case1 => rintro ⟨⟩
  | case2 cs text hne fault hscan =>
    rintro ⟨⟩
    cases failsOnly_scan _ _ hscan
  | case3 cs text hne hscan =>
    rintro ⟨⟩
    rw [String.toList_ofList]
    exact ⟨[], .stop cs, mt List.isEmpty_iff.2 hne, hscan⟩
  | case4 cs text hne token rest hscan ih =>
    intro h
    have hrest : lex rest = .error (.invalidToken remaining) := by
      cases hlex : lex rest with
      | ok tokens =>
        rw [hlex] at h
        cases h
      | error fault =>
        rw [hlex] at h
        exact h
    obtain ⟨tokens, hadvances, hne, hstuck⟩ := ih hrest
    exact ⟨token :: tokens, .token hscan hadvances, hne, hstuck⟩

/-- Every character of a text is accounted for.  The tokens of a text are those of the lexemes that
it consists of together with blanks.  A text without tokens is read up to a place where no part of
the rest spells a token, and the tokens up to there are those of the text before it. -/
theorem ofText_accounts (s : String) :
    (∀ tokens, ofText s = .ok tokens → ∃ words ending, (∀ c ∈ ending, Text.isBlank c = true) ∧
      s.toList = spaced words ending ∧ tokens = resolveSigns (words.map fun w => w.token)) ∧
    ∀ remaining, ofText s = .error (.invalidToken remaining) → ∃ consumed tokens,
      s = consumed ++ remaining ∧ Advances s.toList tokens remaining.toList ∧
      ofText consumed = .ok (resolveSigns tokens) ∧ remaining ≠ "" ∧
      (∀ c ∈ remaining.toList.head?, Text.isBlank c = false) ∧
      ∀ part, part <+: remaining.toList → ofLexeme? part = .ok none := by
  constructor
  · intro tokens h
    obtain ⟨lexed, hlex, rfl⟩ := Outcome.map_eq_ok_iff.1 h
    obtain ⟨words, ending, hending, htext, rfl⟩ := exists_words_of_lex lexed hlex
    exact ⟨words, ending, hending, htext, rfl⟩
  · intro remaining h
    have hlex : lex s.toList = .error (.invalidToken remaining) := by
      rw [ofText] at h
      cases hlex : lex s.toList with
      | ok tokens =>
        rw [hlex] at h
        exact nomatch h
      | error fault =>
        rw [hlex] at h
        exact h
    obtain ⟨tokens, hadvances, hne, hstuck⟩ := exists_advances_of_lex hlex
    obtain ⟨consumed, htext, hconsumed⟩ := hadvances.exists_consumed
    refine ⟨String.ofList consumed, tokens, ?_, hadvances, ?_, ?_, hadvances.isBlank_head?,
      fun part hpart => ofLexeme?_of_scan_eq_none hstuck hpart⟩
    · rw [← String.toList_inj, String.toList_append, String.toList_ofList, htext]
    · rw [ofText, String.toList_ofList, hconsumed]
      rfl
    · rintro rfl
      exact hne rfl

/-- For instance a point without digits after it is left over, and the number before it is read as
one at the end of a text. -/
theorem ofText_accounts_point :
    ofText "2 + 1.5.x" = .error (.invalidToken ".x") ∧
      ∃ tokens, Advances "2 + 1.5.x".toList tokens ".x".toList ∧
        ofText "2 + 1.5" = .ok (resolveSigns tokens) := by
  have herror : ofText "2 + 1.5.x" = .error (.invalidToken ".x") := by
    decide +kernel
  obtain ⟨consumed, tokens, htext, hadvances, hconsumed, -⟩ :=
    (ofText_accounts "2 + 1.5.x").2 ".x" herror
  have hsplit : "2 + 1.5" ++ ".x" = consumed ++ ".x" := htext
  rw [← String.toList_inj, String.toList_append, String.toList_append] at hsplit
  rw [← String.toList_inj.1 (List.append_cancel_right hsplit)] at hconsumed
  exact ⟨herror, tokens, hadvances, hconsumed⟩

end TermAlgebra.Token
