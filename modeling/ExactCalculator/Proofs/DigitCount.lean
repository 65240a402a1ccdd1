import ExactCalculator.Decimal.Digits
import Mathlib.Algebra.Order.Ring.Nat
import Mathlib.Algebra.Ring.Nat

/-!
# Digit counts and their estimates

The number of decimal digits against powers of ten (`digitCount_le_iff`), and the two estimates
that are read from the binary length: they enclose the number (`digitsLower_le_digitCount`,
`digitCount_lt_digitsUpper`) and are at most two off (`digitCount_le_digitsLower`,
`digitsUpper_le`).
-/

namespace ExactCalculator

theorem tenPow_eq_pow (k : ℕ) : tenPow k = 10 ^ k := rfl

/-! ## The number of digits -/

theorem digitCount_pos (n : ℕ) : 0 < digitCount n := Nat.length_toDigits_pos

theorem digitCount_le_iff {n k : ℕ} (hk : 0 < k) : digitCount n ≤ k ↔ n < 10 ^ k :=
  Nat.length_toDigits_le_iff (by decide) hk

theorem lt_digitCount_iff {n k : ℕ} (hk : 0 < k) : k < digitCount n ↔ 10 ^ k ≤ n := by
  rw [← not_le, digitCount_le_iff hk, not_lt]

theorem lt_ten_pow_digitCount (n : ℕ) : n < 10 ^ digitCount n :=
  (digitCount_le_iff (digitCount_pos n)).1 le_rfl

theorem ten_pow_pred_digitCount_le {n : ℕ} (hn : n ≠ 0) : 10 ^ (digitCount n - 1) ≤ n := by
  have hpos := digitCount_pos n
  by_cases h1 : digitCount n = 1
  · rw [h1]
    simp only [Nat.sub_self, pow_zero]
    omega
  · exact (lt_digitCount_iff (by omega)).1 (by omega)

/-- A power of ten that fits into a number is shorter than it. -/
theorem lt_digitCount_of_le {n k : ℕ} (h : 10 ^ k ≤ n) : k < digitCount n := by
  by_cases hk : k = 0
  · rw [hk]
    exact digitCount_pos n
  · exact (lt_digitCount_iff (by omega)).2 h

/-! ## Sums and products -/

theorem digitCount_mono {m n : ℕ} (h : m ≤ n) : digitCount m ≤ digitCount n :=
  (digitCount_le_iff (digitCount_pos n)).2 (h.trans_lt (lt_ten_pow_digitCount n))

theorem digitCount_add_le (m n : ℕ) :
    digitCount (m + n) ≤ max (digitCount m) (digitCount n) + 1 := by
  have hm : m < 10 ^ max (digitCount m) (digitCount n) :=
    (lt_ten_pow_digitCount m).trans_le (Nat.pow_le_pow_right (by decide) (le_max_left _ _))
  have hn : n < 10 ^ max (digitCount m) (digitCount n) :=
    (lt_ten_pow_digitCount n).trans_le (Nat.pow_le_pow_right (by decide) (le_max_right _ _))
  rw [digitCount_le_iff (Nat.succ_pos _), pow_succ]
  omega

theorem digitCount_mul_le (m n : ℕ) : digitCount (m * n) ≤ digitCount m + digitCount n := by
  have hpos := digitCount_pos m
  rw [digitCount_le_iff (by omega), pow_add]
  exact Nat.mul_lt_mul'' (lt_ten_pow_digitCount m) (lt_ten_pow_digitCount n)

theorem digitCount_mul_tenPow_le (n k : ℕ) : digitCount (n * tenPow k) ≤ digitCount n + k := by
  have hpos := digitCount_pos n
  rw [digitCount_le_iff (by omega), pow_add]
  exact Nat.mul_lt_mul_of_pos_right (lt_ten_pow_digitCount n) (tenPow_pos k)

theorem digitCount_mul_tenPow {n : ℕ} (hn : n ≠ 0) (k : ℕ) :
    digitCount (n * tenPow k) = digitCount n + k := by
  have hpos := digitCount_pos n
  have hle : 10 ^ (digitCount n - 1 + k) ≤ n * tenPow k := by
    rw [pow_add]
    exact Nat.mul_le_mul_right _ (ten_pow_pred_digitCount_le hn)
  have hlt := lt_digitCount_of_le hle
  have hupper := digitCount_mul_tenPow_le n k
  omega

/-! ## The estimates -/

theorem bitCount_eq {n : ℕ} (hn : n ≠ 0) : bitCount n = n.log2 + 1 := if_neg hn

theorem digitsLower_le_digitCount (n : ℕ) : digitsLower n ≤ digitCount n := by
  rw [digitsLower]
  refine max_le (digitCount_pos n) ?_
  by_cases hn : n = 0
  · subst hn
    decide
  · rw [bitCount_eq hn, Nat.add_sub_cancel]
    have hlog := (le_decimalLog_iff n.log2 _).1 le_rfl
    have hself : twoPow n.log2 ≤ n := Nat.log2_self_le hn
    exact (lt_digitCount_of_le (hlog.trans hself)).le

theorem digitCount_lt_digitsUpper (n : ℕ) : digitCount n < digitsUpper n := by
  rw [digitsUpper]
  by_cases hn : n = 0
  · subst hn
    decide
  · have hlt : n < twoPow (bitCount n) := by
      rw [bitCount_eq hn]
      exact Nat.lt_log2_self
    have hlog : ¬ tenPow (decimalLog (bitCount n) + 1) ≤ twoPow (bitCount n) := by
      rw [← le_decimalLog_iff]
      omega
    have hten : n < 10 ^ (decimalLog (bitCount n) + 1) := hlt.trans (not_le.1 hlog)
    have := (digitCount_le_iff (Nat.succ_pos _)).2 hten
    omega

/-- The binary length overshoots by a factor of two at most, so neither estimate is far off. -/
theorem twoPow_bitCount_le {n : ℕ} (hn : n ≠ 0) : twoPow (bitCount n) ≤ 2 * n := by
  have hself : 2 ^ n.log2 ≤ n := Nat.log2_self_le hn
  rw [bitCount_eq hn]
  show 2 ^ (n.log2 + 1) ≤ 2 * n
  rw [pow_succ]
  omega

theorem digitsUpper_le (n : ℕ) : digitsUpper n ≤ digitCount n + 2 := by
  rw [digitsUpper]
  by_cases hn : n = 0
  · subst hn
    decide
  · have hlog := (le_decimalLog_iff (bitCount n) _).1 le_rfl
    have htwo := twoPow_bitCount_le hn
    have hlt := lt_ten_pow_digitCount n
    have hten : 10 ^ decimalLog (bitCount n) < 10 ^ (digitCount n + 1) := by
      rw [pow_succ]
      exact (hlog.trans htwo).trans_lt (by omega)
    have := (Nat.pow_lt_pow_iff_right (by decide)).1 hten
    omega

theorem digitCount_le_digitsLower (n : ℕ) : digitCount n ≤ digitsLower n + 2 := by
  rw [digitsLower]
  by_cases hn : n = 0
  · subst hn
    decide
  · have hlt : n < 2 * twoPow n.log2 := by
      have hself : n < 2 ^ (n.log2 + 1) := Nat.lt_log2_self
      rw [pow_succ, mul_comm] at hself
      exact hself
    have hlog : twoPow n.log2 < 10 ^ (decimalLog n.log2 + 1) := by
      have hnot : ¬ tenPow (decimalLog n.log2 + 1) ≤ twoPow n.log2 := by
        rw [← le_decimalLog_iff]
        omega
      exact not_le.1 hnot
    have hten : n < 10 ^ (decimalLog n.log2 + 2) := by
      rw [pow_succ]
      omega
    have := (digitCount_le_iff (Nat.succ_pos _)).2 hten
    rw [bitCount_eq hn, Nat.add_sub_cancel]
    omega

end ExactCalculator
