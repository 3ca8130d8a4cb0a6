import Mathlib.Tactic
import TermAlgebra.Proofs.Rounding
import TermAlgebra.Proofs.Spacing

/-!
# Decimal numbers read back from their texts

Which decimal numbers the tokens of their own texts are.

The shortest digits of a magnitude read back as the magnitude wherever the point is put
(`Places.spelling`), and positional notation puts it so that the value is kept
(`exists_places_of_positional`).  Whether a magnitude is written like that depends on the order of
its digits, which can be read off the magnitude itself although the digits are only near to it
(`isPositional_iff`).  The other texts hold a character that no number with a point holds
(`kind_of_ofText_eq_decimal`): the sign of a negative number, and a letter where a power of ten is
written or the number is not finite.  So a decimal number is read back from its text exactly if it
is moderate (`ofText_text_iff`).
-/

namespace TermAlgebra

open Rounding (magnitude infinityRank)

/-! ### Orders of magnitude -/

namespace Shortest

/-- The place of the first digit of a decimal magnitude. -/
def Scientific.order (d : Scientific) : ℤ :=
  d.exponent + ((Numeral.digits d.significand).length - 1 : ℕ)

/-- A decimal magnitude lies between two powers of ten. -/
lemma Scientific.order_spec {d : Scientific} (hd : d.significand ≠ 0) :
    10 ^ d.order ≤ d.value ∧ d.value < 10 ^ (d.order + 1) := by
  have hten : (10 : ℚ) ≠ 0 := by norm_num
  have hlow : (10 : ℚ) ^ ((Numeral.digits d.significand).length - 1) ≤ d.significand := by
    exact_mod_cast Numeral.pow_length_digits_le hd
  have hhigh : (d.significand : ℚ) < 10 ^ (Numeral.digits d.significand).length := by
    exact_mod_cast Numeral.lt_pow_length_digits d.significand
  have hlength := Numeral.length_digits_pos d.significand
  constructor
  · rw [order, value, zpow_add₀ hten, mul_comm, zpow_natCast]
    exact mul_le_mul_of_nonneg_right hlow (by positivity)
  · have hsucc : d.order + 1 = d.exponent + (Numeral.digits d.significand).length := by
      rw [order]
      omega
    rw [hsucc, value, zpow_add₀ hten, mul_comm (10 ^ d.exponent), zpow_natCast]
    exact mul_lt_mul_of_pos_right hhigh (by positivity)

/-- Its order is at least that of a power of ten exactly if the power is not greater. -/
lemma Scientific.le_order_iff {d : Scientific} (hd : d.significand ≠ 0) {k : ℤ} :
    k ≤ d.order ↔ 10 ^ k ≤ d.value := by
  obtain ⟨hlow, hhigh⟩ := order_spec hd
  have hten : (1 : ℚ) < 10 := by norm_num
  constructor
  · intro h
    exact (zpow_le_zpow_right₀ hten.le h).trans hlow
  · intro h
    exact Int.lt_add_one_iff.1 ((zpow_lt_zpow_iff_right₀ hten).1 (h.trans_lt hhigh))

/-- Ranks grow with the decimal magnitudes. -/
lemma Scientific.rank_le_rank {c d : Scientific} (h : c.value ≤ d.value) : c.rank ≤ d.rank := by
  obtain ⟨num, den, hden, hvalue, hrank⟩ := c.exists_rank_eq
  obtain ⟨num', den', hden', hvalue', hrank'⟩ := d.exists_rank_eq
  rw [hrank, hrank']
  exact Rounding.rank_le_rank hden hden' (by rwa [hvalue, hvalue'])

/-- A decimal magnitude that is not greater than a magnitude has no greater rank. -/
lemma Scientific.rank_le_of_value_le {d : Scientific} {r : ℕ} (hr : r < infinityRank)
    (h : d.value ≤ magnitude r) : d.rank ≤ r := by
  obtain ⟨num, den, hden, hvalue, hrank⟩ := d.exists_rank_eq
  obtain ⟨hden', hvalue'⟩ := Rounding.quotient_spec r
  rw [hrank, ← Rounding.rank_of_eq_magnitude hden' hr hvalue']
  exact Rounding.rank_le_rank hden hden' (by rwa [hvalue, hvalue'])

/-- A decimal magnitude that is written with its own digits and is not rounded down separates
magnitudes as it separates their digits. -/
lemma Scientific.value_le_iff {d : Scientific} (hd : ofRank d.rank = d)
    (hdown : d.value ≤ magnitude d.rank) {r : ℕ} (hr : r < infinityRank) :
    d.value ≤ (ofRank r).value ↔ d.value ≤ magnitude r := by
  constructor
  · intro h
    have hle := rank_le_rank h
    rw [rank_ofRank hr] at hle
    exact hdown.trans (Rounding.magnitude_le_magnitude hle hr)
  · intro h
    by_contra hlt
    have hle := rank_le_rank (not_le.1 hlt).le
    rw [rank_ofRank hr] at hle
    have heq : d.rank = r := le_antisymm (rank_le_of_value_le hr h) hle
    rw [← heq, hd] at hlt
    exact hlt le_rfl

/-- The digits of a magnitude other than zero do not stand for zero. -/
lemma significand_ofRank_ne_zero {r : ℕ} (hr : r < infinityRank) (hzero : r ≠ 0) :
    (ofRank r).significand ≠ 0 := by
  intro hsignificand
  have hvalue : ((0 : ℕ) : ℚ) / (1 : ℕ) = (ofRank r).value := by
    rw [Scientific.value, hsignificand, Nat.cast_zero, zero_mul, zero_div]
  have hrank := Scientific.rank_eq one_ne_zero hvalue
  rw [rank_ofRank hr, Rounding.rank, if_pos rfl] at hrank
  exact hzero hrank

/-- The order of a magnitude's digits is that of the magnitude, as far as it is compared with a
power of ten that is written with its own digits and is not rounded down. -/
lemma le_order_ofRank_iff {k : ℤ} (hk : ofRank (Scientific.mk 1 k).rank = ⟨1, k⟩)
    (hdown : 10 ^ k ≤ magnitude (Scientific.mk 1 k).rank) {r : ℕ} (hr : r < infinityRank)
    (hzero : r ≠ 0) : k ≤ (ofRank r).order ↔ 10 ^ k ≤ magnitude r := by
  have hvalue : (Scientific.mk 1 k).value = 10 ^ k := by
    rw [Scientific.value, Nat.cast_one, one_mul]
  rw [Scientific.le_order_iff (significand_ofRank_ne_zero hr hzero), ← hvalue]
  exact Scientific.value_le_iff hk (by rwa [hvalue]) hr

/-- The orders that are written positionally are those of the magnitudes from one ten-thousandth up
to the sixteenth power of ten. -/
lemma isPositional_iff {r : ℕ} (hr : r < infinityRank) (hzero : r ≠ 0) :
    (Decimal.leastPositional ≤ (ofRank r).order ∧ (ofRank r).order < Decimal.positionalLimit) ↔
      1 / 10 ^ 4 ≤ magnitude r ∧ magnitude r < 10 ^ 16 := by
  have hleast : (10 : ℚ) ^ (-4 : ℤ) ≤ magnitude (Scientific.mk 1 (-4)).rank := by
    have hparts : Rounding.parts (Scientific.mk 1 (-4)).rank = (7378697629483821, -66) := by
      decide +kernel
    norm_num [magnitude, hparts]
  have hlimit : (10 : ℚ) ^ (16 : ℤ) ≤ magnitude (Scientific.mk 1 16).rank := by
    have hparts : Rounding.parts (Scientific.mk 1 16).rank = (5000000000000000, 1) := by
      decide +kernel
    norm_num [magnitude, hparts]
  have hlow : Decimal.leastPositional ≤ (ofRank r).order ↔ 1 / 10 ^ 4 ≤ magnitude r := by
    rw [Decimal.leastPositional, le_order_ofRank_iff (by decide +kernel) hleast hr hzero,
      zpow_neg, one_div]
    rfl
  have hhigh : Decimal.positionalLimit ≤ (ofRank r).order ↔ 10 ^ 16 ≤ magnitude r :=
    le_order_ofRank_iff (by decide +kernel) hlimit hr hzero
  rw [hlow, ← not_le, hhigh, not_le]

end Shortest

/-! ### Positional notation -/

namespace Decimal

open Shortest

/-- Digits before and after a point that stand for a number, some of them after the point. -/
structure Places (whole fraction : List Char) (x : ℚ) : Prop where
  isDigit_whole : ∀ d ∈ whole, Numeral.isDigit d = true
  ne_nil : fraction ≠ []
  isDigit_fraction : ∀ d ∈ fraction, Numeral.isDigit d = true
  value_eq : (Numeral.value (whole ++ fraction) : ℚ) / 10 ^ fraction.length = x

/-- Digits that stand for a decimal magnitude spell the number with its rank. -/
lemma Places.spelling {whole fraction : List Char} {d : Scientific}
    (h : Places whole fraction d.value) (hlimit : whole.length ≤ Numeral.digitLimit) :
    Token.Spelling (whole ++ '.' :: fraction) (.decimal (.ofRank false d.rank)) := by
  have hvalue : (Numeral.value (whole ++ fraction) : ℚ) / (10 ^ fraction.length : ℕ) = d.value := by
    push_cast
    exact h.value_eq
  rw [Scientific.rank_eq (Nat.pow_pos (by decide)).ne' hvalue]
  exact .decimal h.isDigit_whole hlimit h.ne_nil h.isDigit_fraction

/-- Zeros are digits. -/
lemma isDigit_of_mem_zeros {n : ℕ} : ∀ d ∈ List.replicate n '0', Numeral.isDigit d = true := by
  intro d hd
  rw [List.eq_of_mem_replicate hd]
  rfl

section Notation

variable {digits : List Char} (hdigits : ∀ d ∈ digits, Numeral.isDigit d = true)
include hdigits

/-- A point before zeros and all the digits. -/
lemma places_before (hne : digits ≠ []) (n : ℕ) :
    Places ['0'] (List.replicate n '0' ++ digits)
      (Numeral.value digits * 10 ^ (-((n + digits.length : ℕ) : ℤ))) where
  isDigit_whole := isDigit_of_mem_zeros (n := 1)
  ne_nil := List.append_ne_nil_of_right_ne_nil _ hne
  isDigit_fraction := List.forall_mem_append.2 ⟨isDigit_of_mem_zeros, hdigits⟩
  value_eq := by
    have hzero : Numeral.value ['0'] = 0 := rfl
    rw [Numeral.value_append, hzero, Nat.zero_mul, Nat.zero_add, Numeral.value_append,
      Numeral.value_replicate_zero, Nat.zero_mul, Nat.zero_add, List.length_append,
      List.length_replicate, zpow_neg, zpow_natCast, div_eq_mul_inv]

/-- A point behind all the digits and zeros. -/
lemma places_behind (n : ℕ) :
    Places (digits ++ List.replicate n '0') ['0'] (Numeral.value digits * 10 ^ (n : ℤ)) where
  isDigit_whole := List.forall_mem_append.2 ⟨hdigits, isDigit_of_mem_zeros⟩
  ne_nil := List.cons_ne_nil _ _
  isDigit_fraction := isDigit_of_mem_zeros (n := 1)
  value_eq := by
    have hzero : Numeral.value ['0'] = 0 := rfl
    rw [Numeral.value_append, hzero, Numeral.value_append, Numeral.value_replicate_zero,
      List.length_replicate, zpow_natCast]
    simp

/-- A point between the digits. -/
lemma places_between {n : ℕ} (hlt : n < digits.length) :
    Places (digits.take n) (digits.drop n)
      (Numeral.value digits * 10 ^ (-((digits.length - n : ℕ) : ℤ))) where
  isDigit_whole d hd := hdigits d (List.mem_of_mem_take hd)
  ne_nil := mt List.drop_eq_nil_iff.1 (not_le.2 hlt)
  isDigit_fraction d hd := hdigits d (List.mem_of_mem_drop hd)
  value_eq := by
    rw [List.take_append_drop, List.length_drop, zpow_neg, zpow_natCast, div_eq_mul_inv]

/-- Positional notation puts the point behind the place of the order. -/
lemma exists_places_of_positional (hne : digits ≠ []) (order : ℤ) :
    ∃ whole fraction, positional digits order = whole ++ '.' :: fraction ∧
      whole.length ≤ order.toNat + 1 ∧
      Places whole fraction
        (Numeral.value digits * 10 ^ (order - (digits.length - 1 : ℕ))) := by
  have hlength := List.length_pos_iff.2 hne
  unfold positional
  split
  · next hneg =>
    have hplaces : order - (digits.length - 1 : ℕ) =
        -(((-order - 1).toNat + digits.length : ℕ) : ℤ) := by omega
    rw [hplaces]
    exact ⟨_, _, rfl, Nat.le_add_left 1 _, places_before hdigits hne _⟩
  · next hpos =>
    dsimp only
    split
    · next hfraction =>
      have hle : digits.length ≤ order.toNat + 1 :=
        List.drop_eq_nil_iff.1 (List.isEmpty_iff.1 hfraction)
      have hplaces : order - (digits.length - 1 : ℕ) =
          ((order.toNat + 1 - digits.length : ℕ) : ℤ) := by omega
      rw [hplaces, List.take_of_length_le hle]
      refine ⟨_, _, rfl, ?_, places_behind hdigits _⟩
      rw [List.length_append, List.length_replicate]
      omega
    · next hfraction =>
      have hlt : order.toNat + 1 < digits.length := by
        rw [← not_le, ← List.drop_eq_nil_iff, ← List.isEmpty_iff]
        exact hfraction
      have hplaces : order - (digits.length - 1 : ℕ) =
          -((digits.length - (order.toNat + 1) : ℕ) : ℤ) := by omega
      rw [hplaces, Nat.sub_eq_zero_of_le hlt.le, List.replicate_zero, List.append_nil]
      exact ⟨_, _, rfl, List.length_take_le _ _, places_between hdigits hlt⟩

end Notation

/-! ### Which texts are read back -/

/-- A decimal number is moderate if it is zero without a sign or a positive number of an order of
magnitude that is written positionally. -/
def IsModerate : Decimal → Prop
  | finite negative r _ =>
      negative = false ∧ (r = 0 ∨ 1 / 10 ^ 4 ≤ magnitude r ∧ magnitude r < 10 ^ 16)
  | infinite _ => False
  | undefined _ => False

/-- The magnitude of a moderate number is written positionally, and that spells the number. -/
lemma spelling_magnitudeText {r : ℕ} (hr : r < infinityRank)
    (h : r = 0 ∨ 1 / 10 ^ 4 ≤ magnitude r ∧ magnitude r < 10 ^ 16) :
    Token.Spelling (magnitudeText r) (.decimal (.finite false r hr)) := by
  unfold magnitudeText
  split
  · next hzero =>
    subst hzero
    exact .decimal (isDigit_of_mem_zeros (n := 1)) (by decide) (List.cons_ne_nil _ _)
      (isDigit_of_mem_zeros (n := 1))
  · next hzero =>
    obtain ⟨hleast, hlimit⟩ := (isPositional_iff hr hzero).2 (h.resolve_left hzero)
    set d := Shortest.ofRank r with hd
    obtain ⟨whole, fraction, htext, hwhole, hplaces⟩ :=
      exists_places_of_positional (Numeral.isDigit_of_mem_digits (n := d.significand))
        Nat.toDigits_ne_nil d.order
    have hexponent : d.order - ((Numeral.digits d.significand).length - 1 : ℕ) = d.exponent :=
      add_sub_cancel_right _ _
    rw [hexponent, Numeral.value_digits] at hplaces
    have hfew : whole.length ≤ Numeral.digitLimit := by
      have hsixteen : Numeral.digitLimit = 4300 ∧ positionalLimit = 16 := ⟨rfl, rfl⟩
      omega
    have hspelling := hplaces.spelling hfew
    rw [hd, rank_ofRank hr, ofRank, dif_pos hr] at hspelling
    dsimp only
    rw [← Scientific.order, decide_eq_true hleast, decide_eq_true hlimit, Bool.and_self,
      if_pos rfl, htext]
    exact hspelling

/-- The text of any other finite magnitude holds the letter before the exponent. -/
lemma mem_magnitudeText {r : ℕ} (hr : r < infinityRank)
    (h : ¬(r = 0 ∨ 1 / 10 ^ 4 ≤ magnitude r ∧ magnitude r < 10 ^ 16)) :
    'e' ∈ magnitudeText r := by
  rw [not_or] at h
  have hexponent := mt (isPositional_iff hr h.1).1 h.2
  rw [← decide_eq_true_iff (p := _ ∧ _), Bool.decide_and] at hexponent
  rw [magnitudeText, if_neg h.1]
  dsimp only
  rw [← Scientific.order, if_neg hexponent]
  exact List.mem_append_right _ List.mem_cons_self

end Decimal

namespace Token

/-- A number with a point that a whole text spells is its only token. -/
lemma ofText_of_spelling {cs : List Char} {v : Decimal} (h : Spelling cs (.decimal v)) :
    ofText (String.ofList cs) = .ok [.decimal v] := by
  rw [ofText, String.toList_ofList, h.spells.lex_eq_ok]
  rfl

/-- Telling signs apart makes no decimal numbers. -/
lemma eq_of_resolveSigns_eq {tokens : List Token} {v : Decimal}
    (h : resolveSigns tokens = [.decimal v]) : tokens = [.decimal v] := by
  match tokens with
  | [] => exact nomatch h
  | [token] =>
    have hresolved : token.resolved none = .decimal v := (List.cons.inj h).1
    cases token with
    | operator op => exact nomatch hresolved
    | _ => exact congrArg ([·]) hresolved
  | _ :: _ :: _ => exact nomatch (List.cons.inj h).2

/-- Numbers with a point are spelled with digits and the point. -/
lemma Spelling.kind {cs : List Char} {v : Decimal} (h : Spelling cs (.decimal v)) :
    ∀ c ∈ cs, Numeral.isDigit c = true ∨ c = '.' := by
  cases h with
  | decimal hwhole hlimit hne hfraction =>
    intro c hc
    rw [List.mem_append, List.mem_cons] at hc
    rcases hc with hc | hc | hc
    · exact Or.inl (hwhole c hc)
    · exact Or.inr hc
    · exact Or.inl (hfraction c hc)
  | mark hmark => exact nomatch isOperand_of_ofMark? hmark

/-- A text whose only token is a decimal number holds digits, points and blanks. -/
lemma kind_of_ofText_eq_decimal {s : String} {v : Decimal} (h : ofText s = .ok [.decimal v]) :
    ∀ c ∈ s.toList, (Numeral.isDigit c = true ∨ c = '.') ∨ Text.isBlank c = true := by
  obtain ⟨tokens, hlex, hsigns⟩ := Outcome.map_eq_ok_iff.1 h
  obtain ⟨words, ending, hending, htext, htokens⟩ := exists_words_of_lex tokens hlex
  rw [eq_of_resolveSigns_eq hsigns, List.map_eq_singleton_iff] at htokens
  obtain ⟨w, rfl, hw⟩ := htokens
  intro c hc
  rw [htext, spaced_cons, List.mem_append, List.mem_append] at hc
  rcases hc with hc | hc | hc
  · exact Or.inr (w.isBlank c hc)
  · exact Or.inl ((hw ▸ w.spelling).kind c hc)
  · exact Or.inr (hending c hc)

/-- Such a text holds none of the other characters that decimal numbers are written with. -/
lemma not_mem_of_ofText_eq_decimal {s : String} {v : Decimal} (h : ofText s = .ok [.decimal v]) :
    '-' ∉ s.toList ∧ 'e' ∉ s.toList ∧ 'n' ∉ s.toList := by
  have hkind := kind_of_ofText_eq_decimal h
  exact ⟨fun hc => absurd (hkind _ hc) (by decide), fun hc => absurd (hkind _ hc) (by decide),
    fun hc => absurd (hkind _ hc) (by decide)⟩

/-- A decimal number is read back from its text exactly if it is moderate: neither negative nor so
small or great that it is written with a power of ten, and finite. -/
theorem ofText_text_iff (v : Decimal) : ofText v.text = .ok [.decimal v] ↔ v.IsModerate := by
  constructor
  · intro h
    obtain ⟨hminus, he, hn⟩ := not_mem_of_ofText_eq_decimal h
    cases v with
    | finite negative r hr =>
      rw [Decimal.text, String.toList_ofList, List.mem_append, not_or] at hminus he
      refine ⟨?_, ?_⟩
      · cases negative with
        | false => rfl
        | true => exact absurd List.mem_cons_self hminus.1
      · by_contra hmoderate
        exact he.2 (Decimal.mem_magnitudeText hr hmoderate)
    | infinite negative =>
      rw [Decimal.text, String.toList_ofList, List.mem_append, not_or] at hn
      exact absurd (by decide) hn.2
    | undefined label =>
      have hletter : 'n' ∈ "nan".toList := by decide
      exact absurd hletter hn
  · intro h
    cases v with
    | finite negative r hr =>
      obtain ⟨rfl, hmoderate⟩ := h
      exact ofText_of_spelling (Decimal.spelling_magnitudeText hr hmoderate)
    | infinite negative => exact h.elim
    | undefined label => exact h.elim

/-- For instance one hundred-thousandth, written with a point, is a decimal number, but its own text
is a number, a name, a minus and a number. -/
theorem ofText_text_small :
    ofText ".00001" = .ok [.decimal (.ofLiteral [] "00001".toList)] ∧
      (Decimal.ofLiteral [] "00001".toList).text = "1e-05" ∧
      ofText (Decimal.ofLiteral [] "00001".toList).text =
        .ok [.integer 1, .name "e", .operator .minus, .integer 5] := by
  decide +kernel

end Token

end TermAlgebra
