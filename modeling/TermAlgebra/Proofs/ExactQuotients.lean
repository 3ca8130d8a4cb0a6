import Mathlib.Tactic
import TermAlgebra.Proofs.Folding

/-!
# Exact quotients

When a quotient of two whole numbers is reduced.

The decision rests on Euclid's algorithm.  A round of it (`euclidRound`) keeps the common divisors
and makes the second number smaller, so that there are no more rounds than this number has units
(`exists_rounds_euclid`), and the last number is the greatest common divisor of the two.  It is the
divisor itself just for a positive divisor that leaves no remainder (`divides_iff`).  Then the
quotient is reduced to the whole number that it comes to, and otherwise it stays
(`reduceQuotient_integers`).
-/

namespace TermAlgebra

/-! ### Euclid's algorithm in rounds -/

/-- One round of Euclid's algorithm: the second number and the remainder of the first one by it. -/
def euclidRound (pair : ℕ × ℕ) : ℕ × ℕ :=
  (pair.2, pair.1 % pair.2)

/-- Unless the second number is zero already, a round makes it smaller. -/
lemma euclidRound_lt {a b : ℕ} (hb : b ≠ 0) : (euclidRound (a, b)).2 < b :=
  Nat.mod_lt a (Nat.pos_of_ne_zero hb)

/-- The second number is zero for the first time after some rounds, of which there are no more than
it has units, and then the first one is the result. -/
lemma exists_rounds_euclid (a b : ℕ) :
    ∃ rounds ≤ b, (∀ k < rounds, (euclidRound^[k] (a, b)).2 ≠ 0) ∧
      euclidRound^[rounds] (a, b) = (euclid a b, 0) := by
  fun_induction euclid a b with
  | case1 a => exact ⟨0, le_rfl, fun k hk => absurd hk (Nat.not_lt_zero k), rfl⟩
  | case2 a b hb ih =>
    obtain ⟨rounds, hle, hbefore, hlast⟩ := ih
    have hlt : (euclidRound (a, b)).2 < b := euclidRound_lt hb
    refine ⟨rounds + 1, Nat.succ_le_of_lt (hle.trans_lt hlt), fun k hk => ?_, hlast⟩
    cases k with
    | zero => exact hb
    | succ k => exact hbefore k (Nat.lt_of_succ_lt_succ hk)

/-! ### The greatest common divisor -/

/-- Only two zeros have the greatest common divisor zero. -/
lemma commonDivisor_eq_zero_iff {a b : ℤ} : commonDivisor a b = 0 ↔ a = 0 ∧ b = 0 := by
  have hzero : (0 : ℤ) ∣ commonDivisor a b ↔ 0 ∣ a ∧ 0 ∣ b := dvd_commonDivisor_iff
  rwa [zero_dvd_iff, zero_dvd_iff, zero_dvd_iff, Nat.cast_eq_zero] at hzero

namespace Expr

/-- Euclid's algorithm comes to an end for any two whole numbers, with their greatest common
divisor.  A positive divisor that leaves no remainder, and no other one, divides a whole number for
the purpose of reducing a quotient; then the quotient is reduced to the exact one, and otherwise it
is left as it is. -/
theorem reduceQuotient_integers (a b : ℤ) :
    (∃ rounds ≤ b.natAbs, (∀ k < rounds, (euclidRound^[k] (a.natAbs, b.natAbs)).2 ≠ 0) ∧
      euclidRound^[rounds] (a.natAbs, b.natAbs) = (commonDivisor a b, 0)) ∧
    (∀ d : ℤ, d ∣ commonDivisor a b ↔ d ∣ a ∧ d ∣ b) ∧
    (commonDivisor a b = 0 ↔ a = 0 ∧ b = 0) ∧
    (divides b a = true ↔ 0 < b ∧ b ∣ a) ∧
    (0 < b ∧ b ∣ a →
      ∃ q, q * b = a ∧ reduceQuotient (integer a) (integer b) = .ok (integer q)) ∧
    (¬ (0 < b ∧ b ∣ a) →
      reduceQuotient (integer a) (integer b) = .ok (division (integer a) (integer b))) := by
  have hreduce : reduceQuotient (integer a) (integer b) =
      .ok ((integerQuotient? (integer a) (integer b)).getD (division (integer a) (integer b))) :=
    reduceQuotient_eq rfl rfl
  rw [integerQuotient?] at hreduce
  refine ⟨exists_rounds_euclid _ _, fun _ => dvd_commonDivisor_iff, commonDivisor_eq_zero_iff,
    divides_iff, fun h => ⟨a / b, Int.ediv_mul_cancel h.2, ?_⟩, fun h => ?_⟩
  · rw [hreduce, if_pos (divides_iff.2 h)]
    rfl
  · rw [hreduce, if_neg (mt divides_iff.1 h)]
    rfl

/-- For instance a negative number is divided, but no number is divided by a negative one. -/
theorem reduceQuotient_integers_negative :
    (∃ q, q * 4 = -12 ∧ reduceQuotient (integer (-12)) (integer 4) = .ok (integer q)) ∧
      reduceQuotient (integer 12) (integer (-4)) = .ok (division (integer 12) (integer (-4))) :=
  ⟨(reduceQuotient_integers (-12) 4).2.2.2.2.1 (by decide),
    (reduceQuotient_integers 12 (-4)).2.2.2.2.2 (by decide)⟩

end Expr

end TermAlgebra
