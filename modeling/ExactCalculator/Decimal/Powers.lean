/-!
# Powers of two and ten

The two families of powers that digits are counted with.
-/

namespace ExactCalculator

def tenPow (k : Nat) : Nat := Nat.pow 10 k

def twoPow (k : Nat) : Nat := Nat.pow 2 k

theorem tenPow_zero : tenPow 0 = 1 := rfl

theorem tenPow_succ (k : Nat) : tenPow (k + 1) = tenPow k * 10 := rfl

theorem tenPow_pos (k : Nat) : 0 < tenPow k := Nat.pow_pos (by decide)

theorem twoPow_pos (k : Nat) : 0 < twoPow k := Nat.pow_pos (by decide)

theorem tenPow_le_tenPow {j k : Nat} (h : j ≤ k) : tenPow j ≤ tenPow k :=
  Nat.pow_le_pow_right (by decide) h

/-- `28 / 93` is above `log₁₀ 2`. -/
theorem twoPow_lt_tenPow (b : Nat) : twoPow b < tenPow (b * 28 / 93 + 1) := by
  refine Nat.lt_of_not_le fun h => ?_
  have h1 : tenPow (b * 28 / 93 + 1) ^ 93 ≤ twoPow b ^ 93 := Nat.pow_le_pow_left h 93
  have h2 : twoPow b ^ 93 ≤ tenPow (28 * b) := by
    calc twoPow b ^ 93 = (2 ^ 93) ^ b := by
          show (2 ^ b) ^ 93 = (2 ^ 93) ^ b
          rw [← Nat.pow_mul, ← Nat.pow_mul, Nat.mul_comm]
      _ ≤ (10 ^ 28) ^ b := Nat.pow_le_pow_left (by decide) b
      _ = tenPow (28 * b) := (Nat.pow_mul 10 28 b).symm
  have h3 : tenPow (28 * b) < tenPow (b * 28 / 93 + 1) ^ 93 := by
    show 10 ^ (28 * b) < (10 ^ (b * 28 / 93 + 1)) ^ 93
    rw [← Nat.pow_mul]
    exact Nat.pow_lt_pow_right (by decide) (by omega)
  omega

end ExactCalculator
