import Mathlib.Tactic
import TermAlgebra.Proofs.Lexing

/-!
# The longest token

What stands at the start of a text is its longest token.

The longest token can be found by trying all parts at the start of a text, from the shortest one to
the whole text, and keeping the last one that spells a token (`longest`).  The parts that spell
tokens do not follow each other without gaps, since `1` and `1.5` are numbers and `1.` is none, and
parts are still tried far behind the end of the token.  Nevertheless this comes to the same as
scanning the text once (`longest_match`): what can follow a token is exactly what keeps all longer
parts from spelling one (`ofLexeme?_of_ends`), and a part cannot be read only if the text starts
with too many digits (`exists_ofLexeme?_eq_ok`), which is found out before anything behind them is
tried.
-/

namespace TermAlgebra.Token

/-! ### Trying one part after the other -/

/-- The longest of the parts at the start of a text that spells a token, with the rest of the text.
The parts of at most `length` characters are tried, the shortest ones first. -/
def longestUpTo (cs : List Char) : ℕ → Except Fault (Option (Token × List Char))
  | 0 => .ok none
  | length + 1 => do
    let best ← longestUpTo cs length
    match ← ofLexeme? (cs.take (length + 1)) with
    | some token => return some (token, cs.drop (length + 1))
    | none => return best

/-- The longest part at the start of a text that spells a token, with the rest of the text. -/
def longest (cs : List Char) : Except Fault (Option (Token × List Char)) :=
  longestUpTo cs cs.length

section Parts

variable {cs : List Char} {tried length : ℕ}

/-- Trying a longer part changes nothing if it spells no token. -/
lemma longestUpTo_succ_of_none (h : ofLexeme? (cs.take (length + 1)) = .ok none) :
    longestUpTo cs (length + 1) = longestUpTo cs length := by
  rw [longestUpTo, h]
  cases longestUpTo cs length <;> rfl

/-- After parts that can be read there is a longest one so far, or none. -/
lemma exists_longestUpTo (h : ∀ n ≤ length, ∃ token, ofLexeme? (cs.take n) = .ok token) :
    ∃ best, longestUpTo cs length = .ok best := by
  induction length with
  | zero => exact ⟨none, rfl⟩
  | succ length ih =>
    obtain ⟨best, hbest⟩ := ih fun n hn => h n (Nat.le_succ_of_le hn)
    obtain ⟨token, htoken⟩ := h (length + 1) le_rfl
    rw [longestUpTo, hbest, htoken]
    cases token with
    | none => exact ⟨best, rfl⟩
    | some token => exact ⟨_, rfl⟩

/-- If longer parts spell no token, it does not matter whether they are tried. -/
lemma longestUpTo_eq_of_le (hle : tried ≤ length)
    (h : ∀ n, tried < n → n ≤ length → ofLexeme? (cs.take n) = .ok none) :
    longestUpTo cs length = longestUpTo cs tried := by
  induction length, hle using Nat.le_induction with
  | base => rfl
  | succ length hle ih =>
    rw [longestUpTo_succ_of_none (h _ (Nat.lt_succ_of_le hle) le_rfl)]
    exact ih fun n htried hn => h n htried (Nat.le_succ_of_le hn)

/-- A part that spells a token is the longest one if shorter ones can be read and longer ones spell
no token. -/
lemma longestUpTo_eq_some {token : Token} (hpos : 0 < tried) (hle : tried ≤ length)
    (hbefore : ∀ n < tried, ∃ token, ofLexeme? (cs.take n) = .ok token)
    (hat : ofLexeme? (cs.take tried) = .ok (some token))
    (hafter : ∀ n, tried < n → n ≤ length → ofLexeme? (cs.take n) = .ok none) :
    longestUpTo cs length = .ok (some (token, cs.drop tried)) := by
  rw [longestUpTo_eq_of_le hle hafter]
  obtain ⟨shorter, rfl⟩ := Nat.exists_eq_succ_of_ne_zero hpos.ne'
  obtain ⟨best, hbest⟩ := exists_longestUpTo fun n hn => hbefore n (Nat.lt_succ_of_le hn)
  rw [longestUpTo, hbest, hat]
  rfl

/-- The first part that cannot be read is a fault, whatever stands behind it. -/
lemma longestUpTo_eq_error {fault : Fault} (hpos : 0 < tried) (hle : tried ≤ length)
    (hbefore : ∀ n < tried, ∃ token, ofLexeme? (cs.take n) = .ok token)
    (hat : ofLexeme? (cs.take tried) = .error fault) :
    longestUpTo cs length = .error fault := by
  induction length, hle using Nat.le_induction with
  | base =>
    obtain ⟨shorter, rfl⟩ := Nat.exists_eq_succ_of_ne_zero hpos.ne'
    obtain ⟨best, hbest⟩ := exists_longestUpTo fun n hn => hbefore n (Nat.lt_succ_of_le hn)
    rw [longestUpTo, hbest, hat]
    rfl
  | succ length _ ih =>
    rw [longestUpTo, ih]
    rfl

end Parts

/-! ### Which parts can be read -/

/-- A text can be read unless it starts with too many digits. -/
lemma exists_ofLexeme?_eq_ok {cs : List Char}
    (h : (cs.takeWhile Numeral.isDigit).length ≤ Numeral.digitLimit) :
    ∃ token, ofLexeme? cs = .ok token := by
  cases cs with
  | nil => exact ⟨none, rfl⟩
  | cons c rest =>
    rw [ofLexeme?]
    split
    · exact ⟨_, rfl⟩
    · dsimp only
      split
      · rw [if_neg (Nat.not_lt.2 h)]
        exact ⟨_, rfl⟩
      · split <;> exact ⟨_, rfl⟩

/-- The part of a text up to a length starts with no more digits than the text, and with no more
than the length allows. -/
lemma length_takeWhile_take (p : Char → Bool) (cs : List Char) (n : ℕ) :
    ((cs.take n).takeWhile p).length = min n (cs.takeWhile p).length := by
  rw [← List.take_takeWhile, List.length_take]

/-- Digits that are too many cannot be read. -/
lemma ofLexeme?_eq_error {digits : List Char} (hdigits : ∀ d ∈ digits, Numeral.isDigit d = true)
    (hlimit : Numeral.digitLimit < digits.length) :
    ofLexeme? digits = .error (.numeralTooLong digits.length) := by
  have hend : ∀ d ∈ ([] : List Char).head?, Numeral.isDigit d = false := nofun
  obtain ⟨htake, hdrop⟩ := takeWhile_dropWhile_append hdigits hend
  rw [List.append_nil] at htake hdrop
  cases digits with
  | nil => exact absurd hlimit (Nat.not_lt_zero _)
  | cons c digits =>
    have hc := isAlpha_of_isDigit (hdigits c List.mem_cons_self)
    rw [ofLexeme?, if_neg (Bool.eq_false_iff.1 hc), htake, hdrop]
    exact if_pos hlimit

/-- Too many digits at the start are the only fault of a text. -/
lemma scan_eq_error_iff {cs : List Char} {fault : Fault} :
    scan cs = .error fault ↔ fault = .numeralTooLong (Numeral.digitLimit + 1) ∧
      Numeral.digitLimit < (cs.takeWhile Numeral.isDigit).length := by
  constructor
  · intro h
    refine ⟨failsOnly_scan cs fault h, ?_⟩
    cases cs with
    | nil => cases h
    | cons c rest =>
      rw [scan] at h
      split at h
      · cases h
      · split at h
        · rw [scanNumber] at h
          split at h
          · next hlimit => exact hlimit
          · split at h <;> cases h
        · cases h
  · rintro ⟨rfl, hlimit⟩
    cases cs with
    | nil => exact absurd hlimit (Nat.not_lt_zero _)
    | cons c rest =>
      have hc : Numeral.isDigit c = true := by
        by_contra hc
        rw [List.takeWhile_cons_of_neg hc] at hlimit
        exact absurd hlimit (Nat.not_lt_zero _)
      rw [scan, if_neg (Bool.eq_false_iff.1 (isAlpha_of_isDigit hc)), hc, Bool.true_or, if_pos rfl,
        scanNumber]
      exact if_pos hlimit

/-- A text that can be scanned does not start with too many digits. -/
lemma length_takeWhile_le_of_scan {cs : List Char} {found : Option (Token × List Char)}
    (h : scan cs = .ok found) :
    (cs.takeWhile Numeral.isDigit).length ≤ Numeral.digitLimit := by
  by_contra hlimit
  rw [scan_eq_error_iff.2 ⟨rfl, Nat.not_le.1 hlimit⟩] at h
  exact nomatch h

/-- A text that goes on behind the end of its first token spells no token. -/
lemma ofLexeme?_of_ends {lexeme part : List Char} {token : Token} (h : Spelling lexeme token)
    (hends : Ends token part) (hne : part ≠ []) : ofLexeme? (lexeme ++ part) = .ok none := by
  have hscan : scan (lexeme ++ part) = .ok (some (token, part)) :=
    scan_eq_some_iff.2 ⟨lexeme, rfl, h, hends⟩
  have hlimit := length_takeWhile_le_of_scan hscan
  obtain ⟨found, hfound⟩ := exists_ofLexeme?_eq_ok hlimit
  cases found with
  | none => exact hfound
  | some other =>
    -- the whole text would be scanned as one token
    have hwhole : scan (lexeme ++ part) = .ok (some (other, [])) :=
      scan_eq_some_iff.2 ⟨lexeme ++ part, (List.append_nil _).symm,
        spelling_of_ofLexeme? hfound hlimit, ends_of_separated separated_nil other⟩
    rw [hscan] at hwhole
    exact absurd (Prod.mk.inj (Option.some.inj (Except.ok.inj hwhole))).2 hne

/-! ### Scanning -/

/-- If a text starts with too many digits, one digit more than the limit is the first part that
cannot be read. -/
lemma longest_eq_error {cs : List Char}
    (h : Numeral.digitLimit < (cs.takeWhile Numeral.isDigit).length) :
    longest cs = .error (.numeralTooLong (Numeral.digitLimit + 1)) := by
  have hlength : (cs.takeWhile Numeral.isDigit).length ≤ cs.length :=
    (List.takeWhile_prefix _).length_le
  have hrun := length_takeWhile_take Numeral.isDigit cs (Numeral.digitLimit + 1)
  have htake : (cs.take (Numeral.digitLimit + 1)).length = Numeral.digitLimit + 1 :=
    List.length_take_of_le (h.trans_le hlength)
  have hdigits : (cs.take (Numeral.digitLimit + 1)).takeWhile Numeral.isDigit =
      cs.take (Numeral.digitLimit + 1) := by
    refine (List.takeWhile_prefix _).eq_of_length ?_
    rw [hrun, htake, Nat.min_eq_left h]
  refine longestUpTo_eq_error (Nat.succ_pos _) (h.trans_le hlength) (fun n hn => ?_) ?_
  · refine exists_ofLexeme?_eq_ok ?_
    rw [length_takeWhile_take]
    exact (Nat.min_le_left _ _).trans (Nat.le_of_lt_succ hn)
  · rw [ofLexeme?_eq_error ?_ (htake ▸ Nat.lt_succ_self _), htake]
    rw [← hdigits]
    exact List.all_eq_true.1 List.all_takeWhile

/-- A token that is spelled at the start of a text and ends there is the longest one. -/
lemma longest_eq_some {lexeme rest : List Char} {token : Token} (h : Spelling lexeme token)
    (hends : Ends token rest) : longest (lexeme ++ rest) = .ok (some (token, rest)) := by
  have hlimit := length_takeWhile_le_of_scan (scan_eq_some_iff.2 ⟨lexeme, rfl, h, hends⟩)
  have hpos : 0 < lexeme.length := List.length_pos_iff.2 h.ne_nil
  have hle : lexeme.length ≤ (lexeme ++ rest).length :=
    (List.prefix_append lexeme rest).length_le
  have hbefore : ∀ n < lexeme.length, ∃ token, ofLexeme? ((lexeme ++ rest).take n) = .ok token := by
    intro n _
    refine exists_ofLexeme?_eq_ok ?_
    rw [length_takeWhile_take]
    exact (Nat.min_le_right _ _).trans hlimit
  have hat : ofLexeme? ((lexeme ++ rest).take lexeme.length) = .ok (some token) := by
    rw [List.take_left]
    exact h.ofLexeme?_eq
  have hafter : ∀ n, lexeme.length < n → n ≤ (lexeme ++ rest).length →
      ofLexeme? ((lexeme ++ rest).take n) = .ok none := by
    intro n hn hlength
    obtain ⟨more, rfl⟩ := Nat.exists_eq_add_of_le hn.le
    rw [List.take_length_add_append]
    rw [← List.take_append_drop more rest] at hends
    refine ofLexeme?_of_ends h hends.of_append ?_
    rw [← List.length_pos_iff, List.length_take]
    rw [List.length_append] at hlength
    omega
  have hlongest := longestUpTo_eq_some hpos hle hbefore hat hafter
  rwa [List.drop_left] at hlongest

/-- Trying all parts at the start of a text finds the same token as scanning it once. -/
lemma longest_eq_scan (cs : List Char) : longest cs = scan cs := by
  cases hscan : scan cs with
  | error fault =>
    obtain ⟨rfl, hlimit⟩ := scan_eq_error_iff.1 hscan
    exact longest_eq_error hlimit
  | ok found =>
    cases found with
    | none =>
      exact longestUpTo_eq_of_le (Nat.zero_le _) fun n _ _ =>
        ofLexeme?_of_scan_eq_none hscan (List.take_prefix n cs)
    | some found =>
      obtain ⟨token, rest⟩ := found
      obtain ⟨lexeme, rfl, hspelling, hends⟩ := scan_eq_some_iff.1 hscan
      exact longest_eq_some hspelling hends

/-- The longest part at the start of a text that spells a token is the one that is found by scanning
the text once.  It is a name, a numeral, a number with a point or a mark, it ends where the text
cannot go on with it, and the rest of the text is what follows.  There is none if the text starts
with no letter, no digit and no mark, and with no point before a digit.  If it starts with more
digits than the limit, this is a fault, whatever follows. -/
theorem longest_match (cs : List Char) :
    longest cs = scan cs ∧
      (∀ token rest, longest cs = .ok (some (token, rest)) ↔
        ∃ lexeme, cs = lexeme ++ rest ∧ Spelling lexeme token ∧ Ends token rest) ∧
      (longest cs = .ok none ↔
        (∀ c ∈ cs.head?, c.isAlpha = false ∧ Numeral.isDigit c = false ∧ ofMark? c = none) ∧
          ∀ d after, cs = '.' :: d :: after → Numeral.isDigit d = false) ∧
      ∀ fault, longest cs = .error fault ↔ fault = .numeralTooLong (Numeral.digitLimit + 1) ∧
        Numeral.digitLimit < (cs.takeWhile Numeral.isDigit).length := by
  rw [longest_eq_scan]
  refine ⟨rfl, fun _ _ => scan_eq_some_iff, ?_, fun _ => scan_eq_error_iff⟩
  rw [scan_eq_none_iff, fraction?_eq_none_iff]

/-- For instance a point without digits behind it is no part of a number, although it would be one
in front of them. -/
example : longest ['1', '.', 'x'] = .ok (some (.integer 1, ['.', 'x'])) ∧
    longest ['1', '.', '5', 'x'] = .ok (some (.decimal (.ofLiteral ['1'] ['5']), ['x'])) := by
  decide +kernel

end TermAlgebra.Token
