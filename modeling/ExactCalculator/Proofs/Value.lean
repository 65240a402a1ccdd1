import ExactCalculator.Decimal.Basic
import ExactCalculator.Proofs.DigitCount
import Mathlib.Algebra.Order.Field.Power
import Mathlib.Data.Rat.Floor
import Mathlib.Tactic.Linarith
import Mathlib.Tactic.Positivity
import Mathlib.Tactic.Ring

/-!
# The numbers that decimals denote

Normalizing keeps the value (`value_normalize`) and moves the exponent up by fewer places than the
coefficient has digits (`exp_normalize`).
-/

namespace ExactCalculator

/-! ## Trailing zeros -/

theorem stripZeros_le (n : ℕ) : (stripZeros n).1 ≤ n := by
  have h := stripZeros_mul n
  have hpos := tenPow_pos (stripZeros n).2
  exact le_of_mul_le_of_one_le_left h.le hpos

/-- A number that ends in zero loses a digit. -/
theorem stripZeros_lt {n : ℕ} (hn : n ≠ 0) (h : n % 10 = 0) : (stripZeros n).1 ≤ n / 10 := by
  rw [stripZeros, if_pos ⟨hn, h⟩]
  exact stripZeros_le (n / 10)

theorem ten_pow_stripZeros_le {n : ℕ} (hn : n ≠ 0) : 10 ^ (stripZeros n).2 ≤ n := by
  have h := stripZeros_mul n
  have hne : (stripZeros n).1 ≠ 0 := by
    intro h0
    rw [h0, zero_mul] at h
    exact hn h.symm
  calc 10 ^ (stripZeros n).2 ≤ (stripZeros n).1 * 10 ^ (stripZeros n).2 :=
        Nat.le_mul_of_pos_left _ (Nat.pos_of_ne_zero hne)
    _ = n := h

namespace Decimal

/-! ## Values -/

theorem value_eq_zero_iff (d : Decimal) : d.value = 0 ↔ d.isZero = true := by
  have hpos : (10 : ℚ) ^ d.exp ≠ 0 := by positivity
  rw [value, mul_eq_zero, or_iff_left hpos, isZero, beq_iff_eq, Int.cast_eq_zero]

theorem value_zero : zero.value = 0 := (value_eq_zero_iff zero).2 rfl

theorem value_neg (d : Decimal) : d.neg.value = -d.value := by
  simp only [value, neg, Int.cast_neg, neg_mul]

theorem sign_mul_natAbs_cast (c : ℤ) : (c.sign : ℚ) * c.natAbs = c := by
  rw [← Int.cast_natCast, ← Int.cast_mul, Int.sign_mul_natAbs]

theorem value_normalize (c e : ℤ) : (normalize c e).value = c * 10 ^ e := by
  by_cases hc : c = 0
  · rw [normalize, if_pos hc, value_zero, hc, Int.cast_zero, zero_mul]
  · have hstrip := stripZeros_mul c.natAbs
    have hcast : ((stripZeros c.natAbs).1 : ℚ) * 10 ^ (stripZeros c.natAbs).2 = c.natAbs := by
      exact_mod_cast hstrip
    rw [normalize, if_neg hc, value]
    simp only [Int.cast_mul, Int.cast_natCast]
    rw [zpow_add₀ (by norm_num), zpow_natCast]
    calc (c.sign : ℚ) * (stripZeros c.natAbs).1 * (10 ^ e * 10 ^ (stripZeros c.natAbs).2)
        = c.sign * ((stripZeros c.natAbs).1 * 10 ^ (stripZeros c.natAbs).2) * 10 ^ e := by ring
      _ = c * 10 ^ e := by rw [hcast, sign_mul_natAbs_cast]

/-- Decimals in normal form are equal when their values are. -/
theorem eq_of_value_eq {a b : Decimal} (ha : a.IsNormal) (hb : b.IsNormal)
    (h : a.value = b.value) : a = b := by
  wlog hle : a.exp ≤ b.exp generalizing a b with H
  · exact (H hb ha h.symm (le_of_not_ge hle)).symm
  by_cases hz : a.coeff = 0
  · have ha0 : a.isZero = true := beq_iff_eq.2 hz
    have hb0 : b.isZero = true := by rwa [← value_eq_zero_iff, ← h, value_eq_zero_iff]
    have hbz : b.coeff = 0 := beq_iff_eq.1 hb0
    have hae : a.exp = 0 := (ha.resolve_right (by simp [hz])).2
    have hbe : b.exp = 0 := (hb.resolve_right (by simp [hbz])).2
    cases a
    cases b
    simp_all
  · obtain ⟨n, hn⟩ := Int.le.dest hle
    have hcoeff : a.coeff = b.coeff * 10 ^ n := by
      have hpos : (10 : ℚ) ^ a.exp ≠ 0 := by positivity
      have hq : (a.coeff : ℚ) * 10 ^ a.exp = b.coeff * 10 ^ n * 10 ^ a.exp := by
        calc (a.coeff : ℚ) * 10 ^ a.exp = b.coeff * 10 ^ b.exp := h
          _ = b.coeff * 10 ^ n * 10 ^ a.exp := by
            rw [← hn, zpow_add₀ (by norm_num), zpow_natCast]
            ring
      exact_mod_cast mul_right_cancel₀ hpos hq
    have hmod : a.coeff % 10 ≠ 0 := ha.resolve_left fun h0 => hz h0.1
    cases n with
    | zero =>
      have hexp : a.exp = b.exp := by omega
      cases a
      cases b
      simp_all
    | succ n =>
      rw [pow_succ, ← mul_assoc] at hcoeff
      omega

/-! ## Coefficients -/

theorem natAbs_coeff_normalize (c e : ℤ) :
    (normalize c e).coeff.natAbs = (stripZeros c.natAbs).1 := by
  by_cases hc : c = 0
  · subst hc
    rw [normalize, if_pos rfl, Int.natAbs_zero, stripZeros]
    rfl
  · rw [normalize, if_neg hc]
    simp only [Int.natAbs_mul, Int.natAbs_natCast]
    rcases Int.lt_or_gt_of_ne hc with h | h
    · rw [Int.sign_eq_neg_one_of_neg h, Int.natAbs_neg, Int.natAbs_one, one_mul]
    · rw [Int.sign_eq_one_of_pos h, Int.natAbs_one, one_mul]

/-! ## Exponents -/

/-- The power of ten just above the magnitude of `d`. -/
def top (d : Decimal) : ℤ := d.exp + digitCount d.coeff.natAbs

/-- Normalizing zero forgets its exponent; any other exponent goes up, by fewer places than the
coefficient has digits. -/
theorem exp_normalize {c e : ℤ} (hc : c ≠ 0) :
    e ≤ (normalize c e).exp ∧ (normalize c e).exp < e + digitCount c.natAbs := by
  rw [normalize, if_neg hc]
  have h := lt_digitCount_of_le (ten_pow_stripZeros_le (Int.natAbs_ne_zero.2 hc))
  constructor
  · simp only
    omega
  · simp only
    omega

end Decimal

end ExactCalculator
