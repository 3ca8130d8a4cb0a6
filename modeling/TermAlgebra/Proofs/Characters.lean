import Mathlib.Tactic
import TermAlgebra.Token.Lexeme

/-!
# Characters

The classes of characters that tokens are spelled with, and runs of characters of one class.

Letters, digits, marks, blanks and the point are told apart by their numbers.  Digits stand for
numbers: what digits one after the other stand for is said by `Numeral.value_append`, and a number
lies between the powers of ten that belong to its digits (`Numeral.pow_length_digits_le` and
`Numeral.lt_pow_length_digits`).
-/

namespace TermAlgebra

/-! ### Classes of characters -/

/-- Most visible ASCII characters are no blanks. -/
lemma Text.isBlank_of_toNat {c : Char} (hlow : 0x21 ≤ c.toNat) (hhigh : c.toNat < 0x85) :
    isBlank c = false := by
  rw [Bool.eq_false_iff]
  intro hblank
  simp only [isBlank, Bool.or_eq_true, Bool.and_eq_true, decide_eq_true_eq, beq_iff_eq] at hblank
  omega

/-- The digits are ten characters in a row. -/
lemma Numeral.isDigit_iff {c : Char} : isDigit c = true ↔ 48 ≤ c.toNat ∧ c.toNat ≤ 57 := by
  simp only [isDigit, Char.isDigit, Bool.and_eq_true, decide_eq_true_eq, ge_iff_le,
    UInt32.le_iff_toNat_le]
  exact Iff.rfl

namespace Token

/-- The letters are twice twenty-six characters in a row. -/
lemma isAlpha_iff {c : Char} :
    c.isAlpha = true ↔ 65 ≤ c.toNat ∧ c.toNat ≤ 90 ∨ 97 ≤ c.toNat ∧ c.toNat ≤ 122 := by
  change (decide (c.val ≥ 'A'.val ∧ c.val ≤ 'Z'.val) ||
    decide (c.val ≥ 'a'.val) && decide (c.val ≤ 'z'.val)) = true ↔ _
  simp only [Bool.or_eq_true, Bool.and_eq_true, decide_eq_true_eq, ge_iff_le,
    UInt32.le_iff_toNat_le]
  exact Iff.rfl

/-- A letter is no blank. -/
lemma isBlank_of_isAlpha {c : Char} (h : c.isAlpha = true) : Text.isBlank c = false := by
  rw [isAlpha_iff] at h
  exact Text.isBlank_of_toNat (by omega) (by omega)

/-- A digit is no blank. -/
lemma isBlank_of_isDigit {c : Char} (h : Numeral.isDigit c = true) : Text.isBlank c = false := by
  rw [Numeral.isDigit_iff] at h
  exact Text.isBlank_of_toNat (by omega) (by omega)

/-- A digit is no letter. -/
lemma isAlpha_of_isDigit {c : Char} (h : Numeral.isDigit c = true) : c.isAlpha = false := by
  rw [Numeral.isDigit_iff] at h
  rw [Bool.eq_false_iff]
  intro halpha
  rw [isAlpha_iff] at halpha
  omega

/-- A letter is no digit. -/
lemma isDigit_of_isAlpha {c : Char} (h : c.isAlpha = true) : Numeral.isDigit c = false := by
  rw [Bool.eq_false_iff]
  intro hdigit
  rw [isAlpha_of_isDigit hdigit] at h
  exact Bool.noConfusion h

/-- What is no part of a name is no letter and no digit. -/
lemma isNamePart_eq_false_iff {c : Char} :
    isNamePart c = false ↔ c.isAlpha = false ∧ Numeral.isDigit c = false := by
  rw [isNamePart, Char.isAlphanum, Bool.or_eq_false_iff]
  exact Iff.rfl

/-- A blank is no part of a name and no point. -/
lemma isNamePart_of_isBlank {c : Char} (h : Text.isBlank c = true) :
    isNamePart c = false ∧ c ≠ '.' := by
  refine ⟨isNamePart_eq_false_iff.2 ⟨?_, ?_⟩, ?_⟩
  · rw [Bool.eq_false_iff]
    intro halpha
    rw [isBlank_of_isAlpha halpha] at h
    exact Bool.noConfusion h
  · rw [Bool.eq_false_iff]
    intro hdigit
    rw [isBlank_of_isDigit hdigit] at h
    exact Bool.noConfusion h
  · rintro rfl
    exact Bool.noConfusion h

/-- A mark is one of six characters. -/
lemma eq_of_ofMark? {c : Char} {token : Token} (h : ofMark? c = some token) :
    c = '*' ∨ c = '+' ∨ c = '-' ∨ c = '/' ∨ c = '(' ∨ c = ')' := by
  unfold ofMark? at h
  split at h
  case h_7 => exact nomatch h
  all_goals simp

/-- A mark is no part of a name and no point. -/
lemma isNamePart_of_ofMark? {c : Char} {token : Token} (h : ofMark? c = some token) :
    isNamePart c = false ∧ c ≠ '.' := by
  rcases eq_of_ofMark? h with rfl | rfl | rfl | rfl | rfl | rfl <;> decide

/-- A mark is no blank. -/
lemma isBlank_of_ofMark? {c : Char} {token : Token} (h : ofMark? c = some token) :
    Text.isBlank c = false := by
  rcases eq_of_ofMark? h with rfl | rfl | rfl | rfl | rfl | rfl <;> decide

/-- The tokens of marks are no operands. -/
lemma isOperand_of_ofMark? {c : Char} {token : Token} (h : ofMark? c = some token) :
    token.isOperand = false := by
  unfold ofMark? at h
  split at h
  case h_7 => exact nomatch h
  all_goals
    obtain rfl := Option.some.inj h
    rfl

/-- A point is no letter, no digit and no mark. -/
lemma point_kind : isNamePart '.' = false ∧ Numeral.isDigit '.' = false ∧ ofMark? '.' = none := by
  decide

/-! ### Runs of characters -/

/-- A run of characters ends where the text goes on with a character of another kind. -/
lemma takeWhile_dropWhile_append {p : Char → Bool} {cs rest : List Char}
    (hcs : ∀ c ∈ cs, p c = true) (hrest : ∀ c ∈ rest.head?, p c = false) :
    (cs ++ rest).takeWhile p = cs ∧ (cs ++ rest).dropWhile p = rest := by
  rw [List.takeWhile_append_of_pos hcs, List.dropWhile_append_of_pos hcs]
  cases rest with
  | nil => exact ⟨List.append_nil cs, rfl⟩
  | cons c rest =>
    have hc : ¬ p c = true := Bool.eq_false_iff.1 (hrest c rfl)
    rw [List.takeWhile_cons_of_neg hc, List.dropWhile_cons_of_neg hc, List.append_nil]
    exact ⟨rfl, rfl⟩

/-- What is left after a run of characters does not go on with the run. -/
lemma head?_dropWhile {p : Char → Bool} (cs : List Char) :
    ∀ c ∈ (cs.dropWhile p).head?, p c = false := by
  intro c hc
  have hnot := List.head?_dropWhile_not p cs
  rw [Option.mem_def.1 hc] at hnot
  exact hnot

/-- A condition on what follows also holds of a part of it. -/
lemma head?_of_append {P : Char → Prop} {cs rest : List Char} (h : ∀ c ∈ (cs ++ rest).head?, P c) :
    ∀ c ∈ cs.head?, P c := by
  cases cs with
  | nil => exact nofun
  | cons c cs => exact h

end Token

/-! ### Digits -/

namespace Numeral

/-- The number that digits stand for has no more digits than they are. -/
lemma value_lt {cs : List Char} (h : ∀ c ∈ cs, isDigit c = true) :
    value cs < 10 ^ cs.length := by
  unfold value
  induction cs with
  | nil => decide
  | cons c cs ih =>
    have hc := isDigit_iff.1 (h c List.mem_cons_self)
    have hrest := ih fun d hd => h d (List.mem_cons_of_mem c hd)
    have hzero : '0'.toNat = 48 := rfl
    have hdigit : 10 ^ cs.length * (c.toNat - '0'.toNat) ≤ 10 ^ cs.length * 9 :=
      Nat.mul_le_mul_left _ (by omega)
    rw [Nat.ofDigitChars_cons, Nat.mul_zero, Nat.zero_add, Nat.ofDigitChars_eq_ofDigitChars_zero,
      List.length_cons, Nat.pow_succ]
    omega

/-- The number of digits up to the limit can be written. -/
lemma fits_value {cs : List Char} (h : ∀ c ∈ cs, isDigit c = true)
    (hlimit : cs.length ≤ digitLimit) : fits (value cs) = true := by
  unfold fits
  generalize digitLimit = limit at hlimit ⊢
  rw [decide_eq_true_eq, Int.natAbs_natCast, Nat.pow_eq]
  exact (value_lt h).trans_le (Nat.pow_le_pow_right (by decide) hlimit)

/-- What digits one after the other stand for. -/
lemma value_append (cs ds : List Char) :
    value (cs ++ ds) = value cs * 10 ^ ds.length + value ds := by
  unfold value
  rw [Nat.ofDigitChars_append, Nat.ofDigitChars_eq_ofDigitChars_zero, Nat.mul_comm]

/-- Zeros stand for zero. -/
lemma value_replicate_zero (n : ℕ) : value (List.replicate n '0') = 0 := by
  rw [value, Nat.ofDigitChars_replicate_zero, Nat.mul_zero]

/-- The digits of a number are digits. -/
lemma isDigit_of_mem_digits {n : ℕ} : ∀ c ∈ digits n, isDigit c = true :=
  fun _ hc => Nat.isDigit_of_mem_toDigits (by decide) (by decide) hc

/-- There is at least one. -/
lemma length_digits_pos (n : ℕ) : 0 < (digits n).length :=
  List.length_pos_iff.2 Nat.toDigits_ne_nil

/-- The first digit of a positive number is not zero. -/
lemma pow_length_digits_le {n : ℕ} (hn : n ≠ 0) : 10 ^ ((digits n).length - 1) ≤ n := by
  rcases Nat.eq_zero_or_pos ((digits n).length - 1) with hone | hmore
  · rw [hone]
    exact Nat.one_le_iff_ne_zero.2 hn
  · rw [← Nat.not_lt, ← Nat.length_toDigits_le_iff (by decide) hmore]
    have hpos := length_digits_pos n
    unfold digits at *
    omega

/-- A number is less than the power of ten with the number of its digits. -/
lemma lt_pow_length_digits (n : ℕ) : n < 10 ^ (digits n).length :=
  (Nat.length_toDigits_le_iff (by decide) (length_digits_pos n)).1 le_rfl

end Numeral

end TermAlgebra
