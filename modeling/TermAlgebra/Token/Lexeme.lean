import TermAlgebra.Fault
import TermAlgebra.Text.Blank

/-!
# Lexemes

The spelling of tokens. A text is cut into lexemes from left to right, each as long as possible,
with blanks between them where wanted. Main definitions: `Token.ofLexeme?` for the token that a
whole text spells, `Token.scan` for the first token of a text, and `Token.lex` for all of them.
-/

namespace TermAlgebra.Token

/-- A name goes on with ASCII letters and digits. -/
def isNamePart (c : Char) : Bool := c.isAlphanum

/-- The tokens that are spelled by one fixed character. -/
def ofMark? : Char → Option Token
  | '*' => some (operator .times)
  | '+' => some (operator .plus)
  | '-' => some (operator .minus)
  | '/' => some (operator .divide)
  | '(' => some (paren .left)
  | ')' => some (paren .right)
  | _ => none

/-- The digits after a point at the start of a text, if there are any, and the rest. -/
def fraction? : List Char → Option (List Char × List Char)
  | '.' :: after =>
    let digits := after.takeWhile Numeral.isDigit
    if digits.isEmpty then none else some (digits, after.dropWhile Numeral.isDigit)
  | _ => none

/-- The token that the whole text spells, if it spells one. A numeral of more digits than the limit
is a fault. -/
def ofLexeme? (cs : List Char) : Except Fault (Option Token) :=
  match cs with
  | [] => .ok none
  | c :: rest =>
    if c.isAlpha then
      .ok (if rest.all isNamePart then some (name (String.ofList cs)) else none)
    else
      let whole := cs.takeWhile Numeral.isDigit
      match cs.dropWhile Numeral.isDigit with
      | [] =>
        if Numeral.digitLimit < whole.length then .error (.numeralTooLong whole.length)
        else .ok (some (integer (Numeral.value whole)))
      | tail =>
        match fraction? tail with
        | some (fraction, []) => .ok (some (decimal (.ofLiteral whole fraction)))
        | _ => .ok (if rest.isEmpty then ofMark? c else none)

/-- The number at the start of a text. Its whole part must not exceed the limit, and a point is
part of the number only if a digit follows. -/
def scanNumber (cs : List Char) : Except Fault (Option (Token × List Char)) :=
  let whole := cs.takeWhile Numeral.isDigit
  let rest := cs.dropWhile Numeral.isDigit
  if Numeral.digitLimit < whole.length then .error (.numeralTooLong (Numeral.digitLimit + 1))
  else match fraction? rest with
    | some (fraction, rest) => .ok (some (decimal (.ofLiteral whole fraction), rest))
    | none => .ok (if whole.isEmpty then none else some (integer (Numeral.value whole), rest))

/-- The longest token at the start of a text and the rest, if any token starts there. -/
def scan : List Char → Except Fault (Option (Token × List Char))
  | [] => .ok none
  | c :: rest =>
    if c.isAlpha then
      .ok (some (name (String.ofList (c :: rest.takeWhile isNamePart)), rest.dropWhile isNamePart))
    else if Numeral.isDigit c || c = '.' then scanNumber (c :: rest)
    else .ok ((ofMark? c).map fun token => (token, rest))

/-! ### A scanned token takes up at least one character -/

/-- What is left after a run of characters is not longer than the text. -/
theorem length_dropWhile_le (p : Char → Bool) (cs : List Char) :
    (cs.dropWhile p).length ≤ cs.length :=
  (List.dropWhile_sublist p).length_le

theorem length_lt_of_fraction? {cs digits rest : List Char}
    (h : fraction? cs = some (digits, rest)) : rest.length < cs.length := by
  unfold fraction? at h
  split at h
  · next after =>
    simp only at h
    split at h
    · simp at h
    · simp only [Option.some.injEq, Prod.mk.injEq] at h
      rw [← h.2]
      exact Nat.lt_succ_of_le (length_dropWhile_le _ after)
  · simp at h

theorem length_lt_of_scanNumber {cs rest : List Char} {token : Token}
    (h : scanNumber cs = .ok (some (token, rest))) : rest.length < cs.length := by
  have hdrop := length_dropWhile_le Numeral.isDigit cs
  unfold scanNumber at h
  simp only at h
  split at h
  · simp at h
  · split at h
    · next hfraction =>
      simp only [Except.ok.injEq, Option.some.injEq, Prod.mk.injEq] at h
      have := length_lt_of_fraction? hfraction
      rw [← h.2]
      omega
    · split at h
      · simp at h
      · next hne =>
        simp only [Except.ok.injEq, Option.some.injEq, Prod.mk.injEq] at h
        rw [← h.2]
        have happ := congrArg List.length
          (List.takeWhile_append_dropWhile (p := Numeral.isDigit) (l := cs))
        have hpos := List.length_pos_iff.2 (mt List.isEmpty_iff.2 hne)
        simp only [List.length_append] at happ
        omega

/-- The rest after a token is shorter than the text. -/
theorem length_lt_of_scan {cs rest : List Char} {token : Token}
    (h : scan cs = .ok (some (token, rest))) : rest.length < cs.length := by
  unfold scan at h
  split at h
  · simp at h
  · next c tail =>
    split at h
    · simp only [Except.ok.injEq, Option.some.injEq, Prod.mk.injEq] at h
      rw [← h.2]
      exact Nat.lt_succ_of_le (length_dropWhile_le _ tail)
    · split at h
      · exact length_lt_of_scanNumber h
      · simp only [Except.ok.injEq, Option.map_eq_some_iff, Prod.mk.injEq] at h
        obtain ⟨_, _, _, rfl⟩ := h
        exact Nat.lt_succ_self _

/-! ### All tokens of a text -/

/-- The tokens of a text as they are spelled, blanks skipped. The first place where no token starts
is reported with the text from there on. -/
def lex (cs : List Char) : Except Fault (List Token) :=
  let text := skipped cs
  if text.1.isEmpty then .ok []
  else match _h : scan text.1 with
    | .error fault => .error fault
    | .ok none => .error (.invalidToken (String.ofList text.1))
    | .ok (some (token, rest)) => (lex rest).map (token :: ·)
termination_by cs.length
decreasing_by
  have := length_lt_of_scan _h
  have := text.2
  omega
where
  /-- The text without its leading blanks, which is not longer. -/
  skipped (cs : List Char) : { text : List Char // text.length ≤ cs.length } :=
    ⟨Text.skipBlanks cs, Text.length_skipBlanks_le cs⟩

end TermAlgebra.Token
