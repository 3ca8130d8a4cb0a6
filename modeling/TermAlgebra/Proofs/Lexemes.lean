import Mathlib.Tactic
import TermAlgebra.Proofs.Characters

/-!
# Lexemes

Which texts spell a token, and where a token ends in a longer text.

The texts that spell a token are names, numerals, numbers with a point and marks (`Spelling`,
`Spelling.ofLexeme?_eq` and `spelling_of_ofLexeme?`).  A text starts with a token if one of them
stands there and what follows cannot belong to it (`Ends` and `scan_eq_some_iff`).  A shorter text
that follows cannot belong to it either (`Ends.of_append`), so a token stays the first one when the
text is cut off behind it.  Where no token starts, no part of the text that starts there spells one
(`ofLexeme?_of_scan_eq_none`).
-/

namespace TermAlgebra.Token

/-! ### Digits after a point -/

/-- Digits after a point at the start of a text. -/
lemma fraction?_eq_some_iff {cs digits rest : List Char} :
    fraction? cs = some (digits, rest) ↔
      digits ≠ [] ∧ (∀ d ∈ digits, Numeral.isDigit d = true) ∧
        (∀ c ∈ rest.head?, Numeral.isDigit c = false) ∧ cs = '.' :: (digits ++ rest) := by
  constructor
  · intro h
    unfold fraction? at h
    split at h
    · next after =>
      dsimp only at h
      split at h
      · exact nomatch h
      · next hne =>
        obtain ⟨rfl, rfl⟩ := Prod.mk.inj (Option.some.inj h)
        exact ⟨mt List.isEmpty_iff.2 hne, List.all_eq_true.1 List.all_takeWhile,
          head?_dropWhile after, by rw [List.takeWhile_append_dropWhile]⟩
    · exact nomatch h
  · rintro ⟨hne, hdigits, hrest, rfl⟩
    obtain ⟨htake, hdrop⟩ := takeWhile_dropWhile_append hdigits hrest
    rw [fraction?, htake, hdrop, if_neg (mt List.isEmpty_iff.1 hne)]

/-- There are none exactly if no digit follows a point at the start. -/
lemma fraction?_eq_none_iff {cs : List Char} :
    fraction? cs = none ↔ ∀ d after, cs = '.' :: d :: after → Numeral.isDigit d = false := by
  constructor
  · rintro h d after rfl
    rw [fraction?] at h
    rw [Bool.eq_false_iff]
    intro hd
    rw [List.takeWhile_cons_of_pos hd] at h
    exact nomatch h
  · intro h
    rw [Option.eq_none_iff_forall_not_mem]
    rintro ⟨digits, after⟩ hfraction
    obtain ⟨hne, hdigits, -, rfl⟩ := fraction?_eq_some_iff.1 hfraction
    obtain ⟨d, digits, rfl⟩ := List.exists_cons_of_ne_nil hne
    have hd := hdigits d List.mem_cons_self
    rw [h d (digits ++ after) rfl] at hd
    exact Bool.noConfusion hd

/-! ### Spelling -/

/-- The texts that spell a token: a letter with letters and digits after it, digits, digits around
a point, of which there may be none before it, and marks.  Digits at the start of the text are up
to the limit. -/
inductive Spelling : List Char → Token → Prop
  | name {c : Char} {cs : List Char} : c.isAlpha = true → (∀ d ∈ cs, isNamePart d = true) →
      Spelling (c :: cs) (.name (String.ofList (c :: cs)))
  | integer {digits : List Char} : digits ≠ [] → (∀ d ∈ digits, Numeral.isDigit d = true) →
      digits.length ≤ Numeral.digitLimit → Spelling digits (.integer (Numeral.value digits))
  | decimal {whole fraction : List Char} : (∀ d ∈ whole, Numeral.isDigit d = true) →
      whole.length ≤ Numeral.digitLimit → fraction ≠ [] →
      (∀ d ∈ fraction, Numeral.isDigit d = true) →
      Spelling (whole ++ '.' :: fraction) (.decimal (.ofLiteral whole fraction))
  | mark {c : Char} {token : Token} : ofMark? c = some token → Spelling [c] token

/-- A text that spells a token and does not start with too many digits is a spelling of it. -/
lemma spelling_of_ofLexeme? {cs : List Char} {token : Token} (h : ofLexeme? cs = .ok (some token))
    (hlimit : (cs.takeWhile Numeral.isDigit).length ≤ Numeral.digitLimit) : Spelling cs token := by
  cases cs with
  | nil => exact nomatch h
  | cons c rest =>
    rw [ofLexeme?] at h
    split at h
    · next halpha =>
      split at h
      · next hrest =>
        obtain rfl := Option.some.inj (Except.ok.inj h)
        exact .name halpha (List.all_eq_true.1 hrest)
      · exact nomatch h
    · dsimp only at h
      have hwhole : ∀ d ∈ (c :: rest).takeWhile Numeral.isDigit, Numeral.isDigit d = true :=
        List.all_eq_true.1 List.all_takeWhile
      have happend := List.takeWhile_append_dropWhile (p := Numeral.isDigit) (l := c :: rest)
      generalize (c :: rest).takeWhile Numeral.isDigit = whole at h hlimit hwhole happend
      split at h
      · next hdrop =>
        rw [if_neg (Nat.not_lt.2 hlimit)] at h
        obtain rfl := Option.some.inj (Except.ok.inj h)
        rw [hdrop, List.append_nil] at happend
        rw [← happend]
        exact .integer (happend ▸ List.cons_ne_nil c rest) hwhole hlimit
      · split at h
        · next hfraction =>
          obtain rfl := Option.some.inj (Except.ok.inj h)
          obtain ⟨hne, hdigits, -, htail⟩ := fraction?_eq_some_iff.1 hfraction
          rw [htail, List.append_nil] at happend
          rw [← happend]
          exact .decimal hwhole hlimit hne hdigits
        · split at h
          · next hrest =>
            obtain rfl := List.isEmpty_iff.1 hrest
            exact .mark (Except.ok.inj h)
          · exact nomatch h

namespace Spelling

variable {cs : List Char} {token : Token}

/-- A spelling spells its token. -/
lemma ofLexeme?_eq (h : Spelling cs token) : ofLexeme? cs = .ok (some token) := by
  cases h with
  | name hc hcs => rw [ofLexeme?, if_pos hc, if_pos (List.all_eq_true.2 hcs)]
  | integer hne hdigits hlimit =>
    obtain ⟨c, rest, rfl⟩ := List.exists_cons_of_ne_nil hne
    have hc := isAlpha_of_isDigit (hdigits c List.mem_cons_self)
    have hend : ∀ d ∈ ([] : List Char).head?, Numeral.isDigit d = false := nofun
    obtain ⟨htake, hdrop⟩ := takeWhile_dropWhile_append hdigits hend
    rw [List.append_nil] at htake hdrop
    rw [ofLexeme?, if_neg (Bool.eq_false_iff.1 hc), htake, hdrop]
    exact if_neg (Nat.not_lt.2 hlimit)
  | @decimal whole fraction hwhole hlimit hne hdigits =>
    have hpoint : ∀ d ∈ ('.' :: fraction).head?, Numeral.isDigit d = false := by
      rintro _ ⟨⟩
      exact point_kind.2.1
    have hfraction : fraction? ('.' :: fraction) = some (fraction, []) :=
      fraction?_eq_some_iff.2 ⟨hne, hdigits, nofun, by rw [List.append_nil]⟩
    obtain ⟨htake, hdrop⟩ := takeWhile_dropWhile_append hwhole hpoint
    cases whole with
    | nil =>
      rw [List.nil_append] at htake hdrop ⊢
      rw [ofLexeme?, htake, hdrop, if_neg (by decide)]
      dsimp only
      rw [hfraction]
    | cons c whole =>
      have hc := isAlpha_of_isDigit (hwhole c List.mem_cons_self)
      rw [List.cons_append] at htake hdrop ⊢
      rw [ofLexeme?, if_neg (Bool.eq_false_iff.1 hc), htake, hdrop]
      dsimp only
      rw [hfraction]
  | @mark c token hmark =>
    obtain ⟨hpart, hpoint⟩ := isNamePart_of_ofMark? hmark
    obtain ⟨halpha, hdigit⟩ := isNamePart_eq_false_iff.1 hpart
    have hfraction : fraction? [c] = none := by
      unfold fraction?
      split
      · next heq => exact absurd (List.cons.inj heq).1 hpoint
      · rfl
    rw [ofLexeme?, if_neg (Bool.eq_false_iff.1 halpha),
      List.dropWhile_cons_of_neg (Bool.eq_false_iff.1 hdigit)]
    dsimp only
    rw [hfraction]
    exact congrArg Except.ok hmark

/-- A spelling does not start with too many digits. -/
lemma length_takeWhile_le (h : Spelling cs token) :
    (cs.takeWhile Numeral.isDigit).length ≤ Numeral.digitLimit := by
  cases h with
  | name hc hcs =>
    rw [List.takeWhile_cons_of_neg (Bool.eq_false_iff.1 (isDigit_of_isAlpha hc))]
    exact Nat.zero_le _
  | integer hne hdigits hlimit => exact (List.takeWhile_sublist _).length_le.trans hlimit
  | decimal hwhole hlimit hne hdigits =>
    rw [List.takeWhile_append_of_pos hwhole, List.takeWhile_cons_of_neg (by decide),
      List.append_nil]
    exact hlimit
  | mark hmark =>
    have hone : 1 ≤ Numeral.digitLimit := by decide
    exact (List.takeWhile_sublist _).length_le.trans hone

/-- A spelling starts with a character that is no blank. -/
lemma isBlank_head? (h : Spelling cs token) : ∀ c ∈ cs.head?, Text.isBlank c = false := by
  cases h with
  | name hc hcs =>
    rintro _ ⟨⟩
    exact isBlank_of_isAlpha hc
  | integer hne hdigits hlimit =>
    intro c hc
    exact isBlank_of_isDigit (hdigits c (List.mem_of_mem_head? hc))
  | @decimal whole fraction hwhole hlimit hne hdigits =>
    cases whole with
    | nil =>
      rintro _ ⟨⟩
      rfl
    | cons d whole =>
      rintro _ ⟨⟩
      exact isBlank_of_isDigit (hwhole d List.mem_cons_self)
  | mark hmark =>
    rintro _ ⟨⟩
    exact isBlank_of_ofMark? hmark

/-- A spelling is not empty. -/
lemma ne_nil (h : Spelling cs token) : cs ≠ [] := by
  rintro rfl
  exact nomatch h.ofLexeme?_eq

end Spelling

/-! ### The first token of a text -/

/-- Whether a token that stands before the text ends there: the text cannot go on with it. -/
def Ends : Token → List Char → Prop
  | .name _, rest => ∀ c ∈ rest.head?, isNamePart c = false
  | .integer _, rest => (∀ c ∈ rest.head?, Numeral.isDigit c = false) ∧
      ∀ d after, rest = '.' :: d :: after → Numeral.isDigit d = false
  | .decimal _, rest => ∀ c ∈ rest.head?, Numeral.isDigit c = false
  | .operator _, _ => True
  | .paren _, _ => True

/-- Whether a name or number that stands before the text ends there. -/
def Separated (rest : List Char) : Prop :=
  ∀ c ∈ rest.head?, isNamePart c = false ∧ c ≠ '.'

/-- Nothing follows at the end of a text. -/
lemma separated_nil : Separated [] := nofun

/-- What starts with a separating character is separated. -/
lemma separated_cons {c : Char} {rest : List Char} (h : isNamePart c = false ∧ c ≠ '.') :
    Separated (c :: rest) := by
  rintro _ ⟨⟩
  exact h

/-- A token ends before a text that is separated from it. -/
lemma ends_of_separated {rest : List Char} (h : Separated rest) (token : Token) :
    Ends token rest := by
  have hdigit : ∀ c ∈ rest.head?, Numeral.isDigit c = false :=
    fun c hc => (isNamePart_eq_false_iff.1 (h c hc).1).2
  cases token with
  | name s => exact fun c hc => (h c hc).1
  | decimal d => exact hdigit
  | integer n =>
    refine ⟨hdigit, ?_⟩
    rintro d after rfl
    exact absurd rfl (h '.' rfl).2
  | operator op => trivial
  | paren side => trivial

/-- A mark ends anywhere. -/
lemma ends_of_not_isOperand {token : Token} (h : token.isOperand = false) (rest : List Char) :
    Ends token rest := by
  cases token with
  | operator op => trivial
  | paren side => trivial
  | _ => exact Bool.noConfusion h

/-- A token that ends before a text ends before each part at its start. -/
lemma Ends.of_append {token : Token} {cs rest : List Char} (h : Ends token (cs ++ rest)) :
    Ends token cs := by
  cases token with
  | name s => exact head?_of_append h
  | decimal d => exact head?_of_append h
  | integer n =>
    refine ⟨head?_of_append h.1, ?_⟩
    rintro d after rfl
    exact h.2 d (after ++ rest) rfl
  | operator op => trivial
  | paren side => trivial

/-- A token that ends before a text ends before it also when a separated text follows. -/
lemma Ends.append {token : Token} {rest tail : List Char} (h : Ends token rest)
    (htail : Separated tail) : Ends token (rest ++ tail) := by
  cases rest with
  | nil => exact ends_of_separated htail token
  | cons c rest =>
    cases token with
    | name s => exact h
    | decimal d => exact h
    | integer n =>
      refine ⟨h.1, fun d after hpoint => ?_⟩
      obtain ⟨rfl, htext⟩ := List.cons.inj hpoint
      cases rest with
      | nil =>
        obtain rfl : tail = d :: after := htext
        exact (isNamePart_eq_false_iff.1 (htail d rfl).1).2
      | cons e rest =>
        obtain ⟨rfl, -⟩ := List.cons.inj htext
        exact h.2 e rest rfl
    | operator op => trivial
    | paren side => trivial

/-- The token of a mark ends anywhere. -/
lemma ends_of_ofMark? {c : Char} {token : Token} (h : ofMark? c = some token) (rest : List Char) :
    Ends token rest :=
  ends_of_not_isOperand (isOperand_of_ofMark? h) rest

/-- A number at the start of a text is spelled there and ends before the rest. -/
lemma scanNumber_eq_some {cs rest : List Char} {token : Token}
    (h : scanNumber cs = .ok (some (token, rest))) :
    ∃ lexeme, cs = lexeme ++ rest ∧ Spelling lexeme token ∧ Ends token rest := by
  have hwhole : ∀ d ∈ cs.takeWhile Numeral.isDigit, Numeral.isDigit d = true :=
    List.all_eq_true.1 List.all_takeWhile
  have happend := List.takeWhile_append_dropWhile (p := Numeral.isDigit) (l := cs)
  rw [scanNumber] at h
  split at h
  · exact nomatch h
  · next hlimit =>
    split at h
    · next fraction after hfraction =>
      obtain ⟨rfl, rfl⟩ := Prod.mk.inj (Option.some.inj (Except.ok.inj h))
      obtain ⟨hne, hdigits, hafter, htail⟩ := fraction?_eq_some_iff.1 hfraction
      refine ⟨_, ?_, .decimal hwhole (Nat.not_lt.1 hlimit) hne hdigits, hafter⟩
      rw [List.append_assoc, List.cons_append, ← htail, happend]
    · next hfraction =>
      split at h
      · exact nomatch h
      · next hne =>
        obtain ⟨rfl, rfl⟩ := Prod.mk.inj (Option.some.inj (Except.ok.inj h))
        exact ⟨_, happend.symm,
          .integer (mt List.isEmpty_iff.2 hne) hwhole (Nat.not_lt.1 hlimit),
          head?_dropWhile cs, fraction?_eq_none_iff.1 hfraction⟩

/-- A number is scanned up to where it ends. -/
lemma scanNumber_append {lexeme rest : List Char} {token : Token} (h : Spelling lexeme token)
    (hrest : Ends token rest) (hdigit : ∀ c ∈ lexeme.head?, Numeral.isDigit c || c = '.') :
    scanNumber (lexeme ++ rest) = .ok (some (token, rest)) := by
  cases h with
  | @name c cs hc hcs =>
    have hstart := hdigit c rfl
    rw [isDigit_of_isAlpha hc, Bool.false_or, decide_eq_true_eq] at hstart
    rw [hstart] at hc
    exact Bool.noConfusion hc
  | integer hne hdigits hlimit =>
    obtain ⟨htake, hdrop⟩ := takeWhile_dropWhile_append hdigits hrest.1
    rw [scanNumber, htake, hdrop, fraction?_eq_none_iff.2 hrest.2]
    dsimp only
    rw [if_neg (Nat.not_lt.2 hlimit), if_neg (mt List.isEmpty_iff.1 hne)]
  | @decimal whole fraction hwhole hlimit hne hdigits =>
    have hpoint : ∀ d ∈ ('.' :: (fraction ++ rest)).head?, Numeral.isDigit d = false := by
      rintro _ ⟨⟩
      exact point_kind.2.1
    obtain ⟨htake, hdrop⟩ := takeWhile_dropWhile_append hwhole hpoint
    rw [List.append_assoc, List.cons_append, scanNumber, htake, hdrop,
      fraction?_eq_some_iff.2 ⟨hne, hdigits, hrest, rfl⟩]
    exact if_neg (Nat.not_lt.2 hlimit)
  | @mark c token hmark =>
    have hstart := hdigit c rfl
    obtain ⟨hpart, hpoint⟩ := isNamePart_of_ofMark? hmark
    rw [(isNamePart_eq_false_iff.1 hpart).2, Bool.false_or, decide_eq_true_eq] at hstart
    exact absurd hstart hpoint

/-- A mark is scanned on its own. -/
lemma scan_mark {c : Char} {token : Token} (h : ofMark? c = some token) (rest : List Char) :
    scan (c :: rest) = .ok (some (token, rest)) := by
  obtain ⟨hpart, hpoint⟩ := isNamePart_of_ofMark? h
  obtain ⟨halpha, hdigit⟩ := isNamePart_eq_false_iff.1 hpart
  rw [scan, halpha, hdigit, decide_eq_false hpoint, if_neg Bool.false_ne_true, Bool.or_self,
    if_neg Bool.false_ne_true, h]
  rfl

/-- A text starts with a token exactly if the token is spelled there and ends before the rest. -/
lemma scan_eq_some_iff {cs rest : List Char} {token : Token} :
    scan cs = .ok (some (token, rest)) ↔
      ∃ lexeme, cs = lexeme ++ rest ∧ Spelling lexeme token ∧ Ends token rest := by
  constructor
  · intro h
    cases cs with
    | nil => exact nomatch h
    | cons c cs =>
      rw [scan] at h
      split at h
      · next halpha =>
        obtain ⟨rfl, rfl⟩ := Prod.mk.inj (Option.some.inj (Except.ok.inj h))
        refine ⟨_, ?_, .name halpha (List.all_eq_true.1 List.all_takeWhile), head?_dropWhile cs⟩
        rw [List.cons_append, List.takeWhile_append_dropWhile]
      · split at h
        · exact scanNumber_eq_some h
        · obtain ⟨mark, hmark, htoken⟩ := Option.map_eq_some_iff.1 (Except.ok.inj h)
          obtain ⟨rfl, rfl⟩ := Prod.mk.inj htoken
          exact ⟨[c], rfl, .mark hmark, ends_of_ofMark? hmark cs⟩
  · rintro ⟨lexeme, rfl, hspelling, hrest⟩
    have hnumber := scanNumber_append hspelling hrest
    cases hspelling with
    | name hc hcs =>
      obtain ⟨htake, hdrop⟩ := takeWhile_dropWhile_append hcs hrest
      rw [List.cons_append, scan, if_pos hc, htake, hdrop]
    | integer hne hdigits hlimit =>
      obtain ⟨c, digits, rfl⟩ := List.exists_cons_of_ne_nil hne
      have hc := hdigits c List.mem_cons_self
      rw [List.cons_append, scan, if_neg (Bool.eq_false_iff.1 (isAlpha_of_isDigit hc)), hc,
        Bool.true_or, if_pos rfl]
      refine hnumber ?_
      rintro _ ⟨⟩
      rw [hc, Bool.true_or]
    | @decimal whole fraction hwhole hlimit hne hdigits =>
      cases whole with
      | nil => exact hnumber (by rintro _ ⟨⟩; rfl)
      | cons c whole =>
        have hc := hwhole c List.mem_cons_self
        rw [List.cons_append, List.cons_append, scan,
          if_neg (Bool.eq_false_iff.1 (isAlpha_of_isDigit hc)), hc, Bool.true_or, if_pos rfl]
        refine hnumber ?_
        rintro _ ⟨⟩
        rw [hc, Bool.true_or]
    | mark hmark => exact scan_mark hmark rest

/-- Where no number starts there is no digit, and none after a point. -/
lemma scanNumber_eq_none {c : Char} {cs : List Char} (h : scanNumber (c :: cs) = .ok none) :
    Numeral.isDigit c = false ∧ fraction? (c :: cs) = none := by
  rw [scanNumber] at h
  split at h
  · exact nomatch h
  · split at h
    · exact nomatch h
    · next hfraction =>
      split at h
      · next hempty =>
        have hc : Numeral.isDigit c = false := by
          rw [Bool.eq_false_iff]
          intro hc
          rw [List.takeWhile_cons_of_pos hc] at hempty
          exact Bool.noConfusion hempty
        rw [List.dropWhile_cons_of_neg (Bool.eq_false_iff.1 hc)] at hfraction
        exact ⟨hc, hfraction⟩
      · exact nomatch h

/-- No token starts at a character that is no letter, no digit and no mark, unless it is the point
before some digits. -/
lemma scan_eq_none_iff {cs : List Char} :
    scan cs = .ok none ↔
      (∀ c ∈ cs.head?, c.isAlpha = false ∧ Numeral.isDigit c = false ∧ ofMark? c = none) ∧
        fraction? cs = none := by
  cases cs with
  | nil => exact ⟨fun _ => ⟨nofun, rfl⟩, fun _ => rfl⟩
  | cons c cs =>
    rw [scan]
    constructor
    · intro h
      split at h
      · exact nomatch h
      · next halpha =>
        rw [Bool.not_eq_true] at halpha
        obtain ⟨hdigit, hfraction, hmark⟩ : Numeral.isDigit c = false ∧
            fraction? (c :: cs) = none ∧ ofMark? c = none := by
          split at h
          · next hstart =>
            obtain ⟨hdigit, hfraction⟩ := scanNumber_eq_none h
            rw [hdigit, Bool.false_or, decide_eq_true_eq] at hstart
            exact ⟨hdigit, hfraction, hstart ▸ point_kind.2.2⟩
          · next hstart =>
            rw [Bool.not_eq_true, Bool.or_eq_false_iff, decide_eq_false_iff_not] at hstart
            refine ⟨hstart.1, fraction?_eq_none_iff.2 ?_, ?_⟩
            · rintro d rest ⟨⟩
              exact absurd rfl hstart.2
            · exact Option.map_eq_none_iff.1 (Except.ok.inj h)
        refine ⟨?_, hfraction⟩
        rintro _ ⟨⟩
        exact ⟨halpha, hdigit, hmark⟩
    · rintro ⟨hhead, hfraction⟩
      obtain ⟨halpha, hdigit, hmark⟩ := hhead c rfl
      have hnot : ¬ Numeral.isDigit c = true := Bool.eq_false_iff.1 hdigit
      rw [if_neg (Bool.eq_false_iff.1 halpha)]
      split
      · rw [scanNumber, List.takeWhile_cons_of_neg hnot, List.dropWhile_cons_of_neg hnot,
          hfraction]
        exact if_neg (Nat.not_lt_zero _)
      · rw [hmark]
        rfl

/-- Where no token starts, no part of the text from there on spells one. -/
lemma ofLexeme?_of_scan_eq_none {cs part : List Char} (h : scan cs = .ok none)
    (hpart : part <+: cs) : ofLexeme? part = .ok none := by
  obtain ⟨after, rfl⟩ := hpart
  obtain ⟨hhead, hnone⟩ := scan_eq_none_iff.1 h
  cases part with
  | nil => rfl
  | cons c part =>
    obtain ⟨halpha, hdigit, hmark⟩ := hhead c rfl
    have hfraction : fraction? (c :: part) = none := by
      rw [fraction?_eq_none_iff] at hnone ⊢
      exact fun d rest heq => hnone d (rest ++ after) (by rw [heq]; rfl)
    rw [ofLexeme?, if_neg (Bool.eq_false_iff.1 halpha),
      List.dropWhile_cons_of_neg (Bool.eq_false_iff.1 hdigit)]
    dsimp only
    rw [hfraction, hmark, ite_self]

end TermAlgebra.Token
