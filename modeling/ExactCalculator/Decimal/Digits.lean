import ExactCalculator.Decimal.Powers

/-!
# Counting decimal digits

The number of decimal digits of a natural number, and bounds on it that are read from its
binary length alone:

* `decimalLog b` is the whole part of `b · log₁₀ 2` (`le_decimalLog_iff`);
* `digitsLower n` and `digitsUpper n` are computed from it, the first at least one, the second
  past the number of digits.

The bounds spare a conversion to decimal: rounding and division only need to know about how
many digits there are.
-/

namespace ExactCalculator

/-- The number of decimal digits of `n`. Zero has one. -/
def digitCount (n : Nat) : Nat := (Nat.toDigits 10 n).length

/-- The number of binary digits of `n`. Zero has none. -/
def bitCount (n : Nat) : Nat := if n = 0 then 0 else n.log2 + 1

/-- The greatest `k` up to `start` whose power of ten is at most `bound`, or zero. -/
def powerBelow (bound : Nat) : Nat → Nat
  | 0 => 0
  | k + 1 => if tenPow (k + 1) ≤ bound then k + 1 else powerBelow bound k

/-- The greatest `k` with `10 ^ k ≤ 2 ^ b`. The search starts at `b · 28 / 93`, just above
`b · log₁₀ 2`. -/
def decimalLog (b : Nat) : Nat := powerBelow (twoPow b) (b * 28 / 93)

def digitsLower (n : Nat) : Nat := max 1 (decimalLog (bitCount n - 1))

def digitsUpper (n : Nat) : Nat := decimalLog (bitCount n) + 2

/-! ## The logarithm -/

theorem powerBelow_le (bound start : Nat) : powerBelow bound start ≤ start := by
  induction start with
  | zero => exact Nat.le_refl 0
  | succ s ih =>
    rw [powerBelow]
    split
    · exact Nat.le_refl _
    · exact Nat.le_succ_of_le ih

theorem le_powerBelow_iff {bound start k : Nat} (hb : 0 < bound) (hk : k ≤ start) :
    k ≤ powerBelow bound start ↔ tenPow k ≤ bound := by
  induction start with
  | zero =>
    obtain rfl : k = 0 := by omega
    simp only [powerBelow, Nat.le_refl, tenPow_zero, true_iff]
    omega
  | succ s ih =>
    rw [powerBelow]
    split
    · next h => exact ⟨fun _ => Nat.le_trans (tenPow_le_tenPow hk) h, fun _ => hk⟩
    · next h =>
      rcases Nat.lt_or_ge s k with hs | hs
      · obtain rfl : k = s + 1 := by omega
        have hle := powerBelow_le bound s
        exact ⟨fun hk' => by omega, fun hk' => absurd hk' h⟩
      · exact ih hs

/-- `decimalLog b` is the whole part of `b · log₁₀ 2`. -/
theorem le_decimalLog_iff (b k : Nat) : k ≤ decimalLog b ↔ tenPow k ≤ twoPow b := by
  rcases Nat.lt_or_ge (b * 28 / 93) k with h | h
  · have h1 := powerBelow_le (twoPow b) (b * 28 / 93)
    have h2 := twoPow_lt_tenPow b
    have h3 : tenPow (b * 28 / 93 + 1) ≤ tenPow k := tenPow_le_tenPow h
    simp only [decimalLog]
    constructor <;> intro h4 <;> omega
  · exact le_powerBelow_iff (twoPow_pos b) h

end ExactCalculator
