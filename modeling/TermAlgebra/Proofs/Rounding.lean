import Mathlib.Tactic
import Mathlib.Data.Int.Log
import TermAlgebra.Decimal.Shortest

/-!
# Ranks of rational numbers

What the rank of the binary64 magnitude nearest to a quotient of natural numbers depends on.

The quotient is divided by a power of two, the value of the last place of its magnitude
(`lastPlace`), and the result is rounded to the nearest natural number, ties to the even one
(`RoundsTo`).  Both depend on the rational number that the quotient stands for only, and both are
monotone, so the rank is monotone (`rank_le_rank`) and equal quotients have the same rank
(`rank_congr`).  The magnitude of a rank has this rank (`rank_of_eq_magnitude`).

Hence the shortest digits of a magnitude read back as its rank, also where the search for them ends
without a result and the exact digits are taken (`Shortest.rank_ofRank`).
-/

namespace TermAlgebra

namespace Rounding

/-! ### Rounding to a natural number -/

/-- A natural number is what a rational number rounds to if no other one is nearer, and it is even
if another one is equally near. -/
structure RoundsTo (x : ℚ) (k : ℕ) : Prop where
  lower : (k : ℚ) - 1 / 2 ≤ x
  upper : x ≤ k + 1 / 2
  even : x = k - 1 / 2 ∨ x = k + 1 / 2 → k % 2 = 0

/-- Rounding is monotone. -/
lemma RoundsTo.le {x y : ℚ} {k l : ℕ} (hx : RoundsTo x k) (hy : RoundsTo y l) (h : x ≤ y) :
    k ≤ l := by
  by_contra hlt
  rw [Nat.not_le] at hlt
  -- Both numbers lie halfway between two consecutive natural numbers, which cannot both be even.
  have hsucc : (l : ℚ) + 1 ≤ k := by exact_mod_cast hlt
  have hlower := hx.lower
  have hupper := hy.upper
  have hk := hx.even (Or.inl (by linarith))
  have hl := hy.even (Or.inr (by linarith))
  have heq : (k : ℚ) = (l + 1 : ℕ) := by
    push_cast
    linarith
  have hkl : k = l + 1 := by exact_mod_cast heq
  omega

/-- A natural number rounds to itself. -/
lemma roundsTo_natCast (k : ℕ) : RoundsTo k k where
  lower := by linarith
  upper := by linarith
  even h := by
    rcases h with h | h
    · linarith
    · linarith

/-- Numbers round to one natural number. -/
lemma RoundsTo.eq {x : ℚ} {k l : ℕ} (hk : RoundsTo x k) (hl : RoundsTo x l) : k = l :=
  le_antisymm (hk.le hl le_rfl) (hl.le hk le_rfl)

/-- A quotient of natural numbers is rounded to the nearest one. -/
lemma roundsTo_divideToEven (num : ℕ) {den : ℕ} (hden : 0 < den) :
    RoundsTo ((num : ℚ) / den) (divideToEven num den) := by
  have hpos : (0 : ℚ) < den := by exact_mod_cast hden
  have hnum : (num : ℚ) = den * (num / den : ℕ) + (num % den : ℕ) := by
    exact_mod_cast (Nat.div_add_mod num den).symm
  have hlt := Nat.mod_lt num hden
  unfold divideToEven
  generalize num / den = q at *
  generalize num % den = r at *
  have hnonneg : (0 : ℚ) ≤ r := Nat.cast_nonneg r
  have hltden : (r : ℚ) < den := by exact_mod_cast hlt
  dsimp only
  split
  · next h =>
    simp only [Bool.or_eq_true, Bool.and_eq_true, decide_eq_true_eq, beq_iff_eq] at h
    have hhalf : 2 * (r : ℚ) ≤ den := by exact_mod_cast (by omega : 2 * r ≤ den)
    refine ⟨?_, ?_, ?_⟩
    · rw [le_div_iff₀ hpos]
      linarith
    · rw [div_le_iff₀ hpos]
      linarith
    · rw [div_eq_iff hpos.ne', div_eq_iff hpos.ne']
      rintro (hx | hx)
      · linarith
      · have htie : 2 * (r : ℚ) = den := by linarith
        have htie' : 2 * r = den := by exact_mod_cast htie
        omega
  · next h =>
    simp only [Bool.or_eq_true, Bool.and_eq_true, decide_eq_true_eq, beq_iff_eq] at h
    have hhalf : (den : ℚ) ≤ 2 * r := by exact_mod_cast (by omega : den ≤ 2 * r)
    refine ⟨?_, ?_, ?_⟩
    · rw [le_div_iff₀ hpos]
      push_cast
      linarith
    · rw [div_le_iff₀ hpos]
      push_cast
      linarith
    · rw [div_eq_iff hpos.ne', div_eq_iff hpos.ne']
      push_cast
      rintro (hx | hx)
      · have htie : 2 * (r : ℚ) = den := by linarith
        have htie' : 2 * r = den := by exact_mod_cast htie
        omega
      · linarith

/-! ### Powers of two -/

/-- The quotient that stands for a multiple of a power of two. -/
lemma scaled_spec (m : ℕ) (exponent : ℤ) :
    0 < (scaled m exponent).2 ∧
      ((scaled m exponent).1 : ℚ) / (scaled m exponent).2 = m * 2 ^ exponent := by
  unfold scaled
  simp only [Nat.pow_eq]
  split
  · next h =>
    obtain ⟨n, rfl⟩ := Int.eq_ofNat_of_zero_le h
    exact ⟨Nat.one_pos, by simp⟩
  · next h =>
    obtain ⟨n, hn⟩ := Int.eq_ofNat_of_zero_le (Int.neg_nonneg.2 (Int.not_le.1 h).le)
    obtain rfl : exponent = -n := by omega
    exact ⟨Nat.two_pow_pos _, by simp [div_eq_mul_inv]⟩

/-- The logarithm of a number lies between two powers. -/
lemma log_eq_of_bounds {x : ℚ} {k : ℤ} (hx : 0 < x) (hlow : 2 ^ k ≤ x) (hhigh : x < 2 ^ (k + 1)) :
    Int.log 2 x = k := by
  have hle : k ≤ Int.log 2 x := (Int.zpow_le_iff_le_log Nat.one_lt_two hx).1 hlow
  have hlt : Int.log 2 x < k + 1 := (Int.lt_zpow_iff_log_lt Nat.one_lt_two hx).1 hhigh
  omega

/-- The binary order of a quotient is its logarithm. -/
lemma binaryOrder_eq_log {num den : ℕ} (hnum : num ≠ 0) (hden : den ≠ 0) :
    binaryOrder num den = Int.log 2 ((num : ℚ) / den) := by
  have hnum' : (0 : ℚ) < num := by exact_mod_cast Nat.pos_of_ne_zero hnum
  have hden' : (0 : ℚ) < den := by exact_mod_cast Nat.pos_of_ne_zero hden
  have hx : (0 : ℚ) < num / den := div_pos hnum' hden'
  have hnumlow : (2 : ℚ) ^ (num.log2 : ℤ) ≤ num := by exact_mod_cast Nat.log2_self_le hnum
  have hnumhigh : (num : ℚ) < 2 ^ ((num.log2 : ℤ) + 1) := by exact_mod_cast Nat.lt_log2_self
  have hdenlow : (2 : ℚ) ^ (den.log2 : ℤ) ≤ den := by exact_mod_cast Nat.log2_self_le hden
  have hdenhigh : (den : ℚ) < 2 ^ ((den.log2 : ℤ) + 1) := by exact_mod_cast Nat.lt_log2_self
  set guess : ℤ := (num.log2 : ℤ) - den.log2 with hguess
  have hlow : (2 : ℚ) ^ (guess - 1) ≤ num / den := by
    rw [le_div_iff₀ hden']
    calc (2 : ℚ) ^ (guess - 1) * den ≤ 2 ^ (guess - 1) * 2 ^ ((den.log2 : ℤ) + 1) := by gcongr
      _ = 2 ^ (num.log2 : ℤ) := by
          rw [← zpow_add₀ two_ne_zero]
          congr 1
          omega
      _ ≤ num := hnumlow
  have hhigh : (num : ℚ) / den < 2 ^ (guess + 1) := by
    rw [div_lt_iff₀ hden']
    calc (num : ℚ) < 2 ^ ((num.log2 : ℤ) + 1) := hnumhigh
      _ = 2 ^ (guess + 1) * 2 ^ (den.log2 : ℤ) := by
          rw [← zpow_add₀ two_ne_zero]
          congr 1
          omega
      _ ≤ 2 ^ (guess + 1) * den := by gcongr
  obtain ⟨hpos, hpower⟩ := scaled_spec 1 guess
  have htest : (scaled 1 guess).1 * den ≤ num * (scaled 1 guess).2 ↔
      (2 : ℚ) ^ guess ≤ num / den := by
    rw [Nat.cast_one, one_mul] at hpower
    rw [← hpower, div_le_div_iff₀ (by exact_mod_cast hpos) hden']
    norm_cast
  unfold binaryOrder
  dsimp only
  rw [← hguess]
  split
  · next h => exact (log_eq_of_bounds hx (htest.1 h) hhigh).symm
  · next h =>
    refine (log_eq_of_bounds hx hlow ?_).symm
    rw [sub_add_cancel]
    exact lt_of_not_ge (mt htest.2 h)

/-! ### Ranks -/

/-- The exponent of the last place of the magnitude nearest to a number. -/
def lastPlace (x : ℚ) : ℤ :=
  max (Int.log 2 x - (precision - 1 : ℕ)) leastExponent

/-- The rank of a quotient counts the units of its last place, after those of the places below. -/
lemma exists_rank_eq {num den : ℕ} (hnum : num ≠ 0) (hden : den ≠ 0) :
    ∃ k, RoundsTo ((num : ℚ) / den / 2 ^ lastPlace ((num : ℚ) / den)) k ∧
      rank num den = min (k + (lastPlace ((num : ℚ) / den) - leastExponent).toNat * 2 ^ 52)
        infinityRank := by
  rw [rank, if_neg hnum, binaryOrder_eq_log hnum hden, ← lastPlace]
  generalize lastPlace ((num : ℚ) / den) = e
  obtain ⟨hpos, hunit⟩ := scaled_spec 1 e
  have hscaled : (num : ℚ) / den / 2 ^ e =
      (num * (scaled 1 e).2 : ℕ) / (den * (scaled 1 e).1 : ℕ) := by
    rw [Nat.cast_one, one_mul] at hunit
    rw [← hunit, div_div_div_eq]
    push_cast
    ring
  have hunitpos : 0 < (scaled 1 e).1 := by
    have hquotient : (0 : ℚ) < (scaled 1 e).1 / (scaled 1 e).2 := by
      rw [hunit]
      positivity
    by_contra hzero
    rw [Nat.eq_zero_of_not_pos hzero, Nat.cast_zero, zero_div] at hquotient
    exact lt_irrefl _ hquotient
  rw [hscaled]
  exact ⟨_, roundsTo_divideToEven _ (Nat.mul_pos (Nat.pos_of_ne_zero hden) hunitpos), rfl⟩

/-- A number has at most 53 binary digits before the end of its last place. -/
lemma div_lastPlace_lt {x : ℚ} : x / 2 ^ lastPlace x < 2 ^ 53 := by
  rw [div_lt_iff₀ (by positivity)]
  calc x < 2 ^ (Int.log 2 x + 1) := Int.lt_zpow_succ_log_self Nat.one_lt_two x
    _ ≤ 2 ^ (53 + lastPlace x) := by
        refine zpow_le_zpow_right₀ one_le_two ?_
        have hle := le_max_left (Int.log 2 x - (precision - 1 : ℕ)) leastExponent
        rw [← lastPlace, precision] at hle
        omega
    _ = 2 ^ 53 * 2 ^ lastPlace x := by
        rw [zpow_add₀ two_ne_zero]
        norm_cast

/-- It has exactly so many, unless its last place is the least one. -/
lemma le_div_lastPlace {x : ℚ} (hx : 0 < x) (h : leastExponent < lastPlace x) :
    2 ^ 52 ≤ x / 2 ^ lastPlace x := by
  have hlast : lastPlace x = Int.log 2 x - 52 := by
    rw [lastPlace, precision] at h ⊢
    omega
  rw [le_div_iff₀ (by positivity)]
  calc (2 : ℚ) ^ 52 * 2 ^ lastPlace x = 2 ^ Int.log 2 x := by
        rw [hlast, ← zpow_natCast, ← zpow_add₀ two_ne_zero]
        congr 1
        norm_num
    _ ≤ x := Int.zpow_log_le_self Nat.one_lt_two hx

/-- The last place does not move down when a number grows. -/
lemma lastPlace_le {x y : ℚ} (hx : 0 < x) (h : x ≤ y) : lastPlace x ≤ lastPlace y :=
  max_le_max (Int.sub_le_sub_right (Int.log_mono_right hx h) _) le_rfl

/-- Ranks grow with the quotients. -/
theorem rank_le_rank {num den num' den' : ℕ} (hden : den ≠ 0) (hden' : den' ≠ 0)
    (h : (num : ℚ) / den ≤ num' / den') : rank num den ≤ rank num' den' := by
  by_cases hnum : num = 0
  · rw [rank, if_pos hnum]
    exact Nat.zero_le _
  have hx : (0 : ℚ) < num / den :=
    div_pos (by exact_mod_cast Nat.pos_of_ne_zero hnum) (by exact_mod_cast Nat.pos_of_ne_zero hden)
  have hnum' : num' ≠ 0 := by
    rintro rfl
    rw [Nat.cast_zero, zero_div] at h
    exact absurd hx (not_lt.2 h)
  obtain ⟨k, hk, hrank⟩ := exists_rank_eq hnum hden
  obtain ⟨l, hl, hrank'⟩ := exists_rank_eq hnum' hden'
  have hplace := lastPlace_le hx h
  have hleast := le_max_right (Int.log 2 ((num : ℚ) / den) - (precision - 1 : ℕ)) leastExponent
  rw [← lastPlace] at hleast
  have hfar := @le_div_lastPlace _ (hx.trans_le h)
  have hnear := @div_lastPlace_lt ((num : ℚ) / den)
  rw [hrank, hrank']
  refine min_le_min ?_ le_rfl
  generalize (num : ℚ) / den = x at *
  generalize (num' : ℚ) / den' = y at *
  rcases hplace.eq_or_lt with heq | hlt
  · rw [heq] at hk ⊢
    exact Nat.add_le_add_right (hk.le hl (div_le_div_of_nonneg_right h (by positivity))) _
  · -- The significand is at most doubled by rounding, and a higher place makes up for that.
    have hkle : k ≤ 2 ^ 53 := hk.le (roundsTo_natCast _) (by exact_mod_cast hnear.le)
    have hlle : 2 ^ 52 ≤ l :=
      (roundsTo_natCast _).le hl (by exact_mod_cast hfar (hleast.trans_lt hlt))
    omega

/-- Equal quotients have the same rank. -/
lemma rank_congr {num den num' den' : ℕ} (hden : den ≠ 0) (hden' : den' ≠ 0)
    (h : (num : ℚ) / den = num' / den') : rank num den = rank num' den' :=
  le_antisymm (rank_le_rank hden hden' h.le) (rank_le_rank hden' hden h.ge)

/-! ### Magnitudes -/

/-- The magnitude of a rank. -/
def magnitude (r : ℕ) : ℚ :=
  (parts r).1 * 2 ^ (parts r).2

/-- The quotient of a rank stands for its magnitude. -/
lemma quotient_spec (r : ℕ) :
    (quotient r).2 ≠ 0 ∧ ((quotient r).1 : ℚ) / (quotient r).2 = magnitude r := by
  obtain ⟨hpos, hscaled⟩ := scaled_spec (parts r).1 (parts r).2
  exact ⟨hpos.ne', hscaled⟩

/-- A significand that is less than the least normal one has the least place. -/
lemma lastPlace_subnormal {s : ℕ} (hs : s ≠ 0) (h : s < 2 ^ 52) :
    lastPlace (s * 2 ^ leastExponent) = leastExponent := by
  have hpos : (0 : ℚ) < s * 2 ^ leastExponent :=
    mul_pos (by exact_mod_cast Nat.pos_of_ne_zero hs) (by positivity)
  have hlt : (s : ℚ) * 2 ^ leastExponent < 2 ^ (52 + leastExponent) := by
    rw [zpow_add₀ two_ne_zero]
    gcongr
    exact_mod_cast h
  have hlog : Int.log 2 ((s : ℚ) * 2 ^ leastExponent) < 52 + leastExponent :=
    (Int.lt_zpow_iff_log_lt Nat.one_lt_two hpos).1 hlt
  rw [lastPlace, precision]
  omega

/-- A normal significand determines the place. -/
lemma lastPlace_normal {s : ℕ} {e : ℤ} (hlow : 2 ^ 52 ≤ s) (hhigh : s < 2 ^ 53)
    (he : leastExponent ≤ e) : lastPlace (s * 2 ^ e) = e := by
  have hpos : (0 : ℚ) < s * 2 ^ e :=
    mul_pos (by exact_mod_cast (Nat.two_pow_pos 52).trans_le hlow) (by positivity)
  have hle : (2 : ℚ) ^ (52 + e) ≤ s * 2 ^ e := by
    rw [zpow_add₀ two_ne_zero]
    gcongr
    exact_mod_cast hlow
  have hlt : (s : ℚ) * 2 ^ e < 2 ^ (52 + e + 1) := by
    rw [show 52 + e + 1 = 53 + e by omega, zpow_add₀ two_ne_zero]
    gcongr
    exact_mod_cast hhigh
  rw [lastPlace, log_eq_of_bounds hpos hle hlt, precision]
  omega

/-- The significand of a rank counts units of the last place of its magnitude. -/
lemma parts_spec {r : ℕ} (hr : r ≠ 0) :
    (parts r).1 ≠ 0 ∧ lastPlace (magnitude r) = (parts r).2 ∧
      (parts r).1 + ((parts r).2 - leastExponent).toNat * 2 ^ 52 = r := by
  have hunit : Nat.pow 2 (precision - 1) = 2 ^ 52 := rfl
  unfold magnitude parts
  rw [hunit]
  dsimp only
  split
  · next hlow =>
    exact ⟨hr, lastPlace_subnormal hr (by omega), by omega⟩
  · next hhigh =>
    have hmod := Nat.mod_lt r (Nat.two_pow_pos 52)
    refine ⟨by omega, ?_, by omega⟩
    exact lastPlace_normal (by omega) (by omega) (by omega)

/-- A finite magnitude has the rank that it is the magnitude of. -/
theorem rank_of_eq_magnitude {num den r : ℕ} (hden : den ≠ 0) (hr : r < infinityRank)
    (h : (num : ℚ) / den = magnitude r) : rank num den = r := by
  have hden' : (den : ℚ) ≠ 0 := by exact_mod_cast hden
  by_cases hzero : r = 0
  · have hmagnitude : magnitude 0 = 0 := by
      rw [magnitude, show (parts 0).1 = 0 from rfl, Nat.cast_zero, zero_mul]
    rw [hzero, hmagnitude, div_eq_zero_iff, or_iff_left hden', Nat.cast_eq_zero] at h
    rw [hzero, rank, if_pos h]
  obtain ⟨hs, hplace, hsum⟩ := parts_spec hzero
  have hpower : (2 : ℚ) ^ (parts r).2 ≠ 0 := by positivity
  have hnum : num ≠ 0 := by
    rintro rfl
    rw [Nat.cast_zero, zero_div] at h
    exact mul_ne_zero (by exact_mod_cast hs) hpower h.symm
  obtain ⟨k, hk, hrank⟩ := exists_rank_eq hnum hden
  -- The magnitude is a whole number of units of its last place.
  rw [h, hplace, magnitude, mul_div_cancel_right₀ _ hpower] at hk
  rw [hrank, h, hplace, hk.eq (roundsTo_natCast _), hsum]
  exact min_eq_left hr.le

/-- Magnitudes grow with their ranks. -/
lemma magnitude_le_magnitude {r s : ℕ} (h : r ≤ s) (hs : s < infinityRank) :
    magnitude r ≤ magnitude s := by
  obtain ⟨hden, hvalue⟩ := quotient_spec r
  obtain ⟨hden', hvalue'⟩ := quotient_spec s
  by_contra hlt
  have hle : rank (quotient s).1 (quotient s).2 ≤ rank (quotient r).1 (quotient r).2 :=
    rank_le_rank hden' hden (by rw [hvalue, hvalue']; exact (not_le.1 hlt).le)
  rw [rank_of_eq_magnitude hden' hs hvalue',
    rank_of_eq_magnitude hden (h.trans_lt hs) hvalue] at hle
  rw [le_antisymm h hle] at hlt
  exact hlt le_rfl

end Rounding

namespace Shortest

open Rounding

/-! ### Decimal magnitudes -/

/-- The value of a decimal magnitude. -/
def Scientific.value (d : Scientific) : ℚ :=
  d.significand * 10 ^ d.exponent

/-- The rank of a decimal magnitude is that of a quotient that stands for its value. -/
lemma Scientific.exists_rank_eq (d : Scientific) :
    ∃ num den : ℕ, den ≠ 0 ∧ (num : ℚ) / den = d.value ∧ d.rank = Rounding.rank num den := by
  unfold rank value
  simp only [Nat.pow_eq]
  split
  · next h =>
    obtain ⟨n, hn⟩ := Int.eq_ofNat_of_zero_le h
    exact ⟨_, 1, one_ne_zero, by simp [hn], rfl⟩
  · next h =>
    obtain ⟨n, hn⟩ := Int.eq_ofNat_of_zero_le (Int.neg_nonneg.2 (Int.not_le.1 h).le)
    obtain hexponent : d.exponent = -n := by omega
    exact ⟨_, _, (Nat.pow_pos (by decide)).ne', by simp [hexponent, div_eq_mul_inv], rfl⟩

/-- A decimal magnitude has the rank of every quotient that stands for its value. -/
lemma Scientific.rank_eq {d : Scientific} {num den : ℕ} (hden : den ≠ 0)
    (h : (num : ℚ) / den = d.value) : d.rank = Rounding.rank num den := by
  obtain ⟨num', den', hden', hvalue, hrank⟩ := d.exists_rank_eq
  rw [hrank]
  exact rank_congr hden' hden (hvalue.trans h.symm)

/-- The exact decimal form of a magnitude has its value. -/
lemma value_exact (s : ℕ) (e : ℤ) : (exact s e).value = s * 2 ^ e := by
  unfold exact Scientific.value
  simp only [Nat.pow_eq]
  split
  · next h =>
    obtain ⟨n, rfl⟩ := Int.eq_ofNat_of_zero_le h
    simp
  · next h =>
    obtain ⟨n, hn⟩ := Int.eq_ofNat_of_zero_le (Int.neg_nonneg.2 (Int.not_le.1 h).le)
    obtain rfl : e = -n := by omega
    have hten : (10 : ℚ) = 2 * 5 := by norm_num
    simp only [neg_neg, Int.toNat_natCast, Nat.cast_mul, Nat.cast_pow, Nat.cast_ofNat, zpow_neg,
      zpow_natCast, hten, mul_pow]
    field_simp

/-- The digits that a finite magnitude is written with read back as its rank. -/
theorem rank_ofRank {r : ℕ} (hr : r < infinityRank) : (ofRank r).rank = r := by
  unfold ofRank
  dsimp only
  cases hsearch : search r (scaled (parts r).1 (parts r).2).1 (scaled (parts r).1 (parts r).2).2 20
      (decimalBound (parts r).1 (parts r).2) with
  | some d => exact rank_of_search hsearch
  | none =>
    obtain ⟨hden, hvalue⟩ := quotient_spec r
    rw [Option.getD_none, Scientific.rank_eq hden (hvalue.trans (value_exact _ _).symm)]
    exact rank_of_eq_magnitude hden hr hvalue

end Shortest

end TermAlgebra
