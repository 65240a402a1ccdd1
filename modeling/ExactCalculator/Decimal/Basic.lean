import ExactCalculator.Decimal.Powers

/-!
# Decimal numbers

A number `coeff · 10 ^ exp` with integers `coeff` and `exp`, written in one way only: the
coefficient does not end in a zero digit, and zero is `0 · 10 ^ 0` (`IsNormal`). So equality of
numbers is equality of the pairs.

* `Decimal.value`: the rational number that is denoted;
* `Decimal.normalize`: the normal form of any coefficient and exponent;
* `Decimal.neg`: the opposite number;
* `Decimal.IsExponent`: exponents are computed in 64 bits, and this one fits.
-/

namespace ExactCalculator

structure Decimal where
  coeff : Int
  exp : Int
  deriving DecidableEq, Repr

/-- Removes the trailing zero digits of `n` and counts them. Zero is left as it is. -/
def stripZeros (n : Nat) : Nat × Nat :=
  if n ≠ 0 ∧ n % 10 = 0 then
    let (m, k) := stripZeros (n / 10)
    (m, k + 1)
  else (n, 0)
termination_by n
decreasing_by omega

namespace Decimal

/-- The rational number that a decimal denotes. -/
def value (d : Decimal) : Rat := d.coeff * (10 : Rat) ^ d.exp

/-- The one way to write a number: no trailing zero digit, and zero with exponent zero. -/
def IsNormal (d : Decimal) : Prop :=
  (d.coeff = 0 ∧ d.exp = 0) ∨ d.coeff % 10 ≠ 0

instance (d : Decimal) : Decidable d.IsNormal :=
  inferInstanceAs (Decidable (_ ∨ _))

def zero : Decimal := ⟨0, 0⟩

instance : Inhabited Decimal := ⟨zero⟩

def isZero (d : Decimal) : Bool := d.coeff == 0

def isNegative (d : Decimal) : Bool := d.coeff < 0

def neg (d : Decimal) : Decimal := ⟨-d.coeff, d.exp⟩

/-! ## Normal form -/

/-- The normal form of `coeff · 10 ^ exp`. -/
def normalize (coeff exp : Int) : Decimal :=
  if coeff = 0 then zero
  else
    let (m, k) := stripZeros coeff.natAbs
    ⟨coeff.sign * m, exp + k⟩

def ofInt (n : Int) : Decimal := normalize n 0

/-! ## Exponents in 64 bits -/

/-- The exponents from `low` to `high` fit into 64 bits. -/
def ExponentsFit (low high : Int) : Prop :=
  -9223372036854775808 ≤ low ∧ high ≤ 9223372036854775807

instance (low high : Int) : Decidable (ExponentsFit low high) :=
  inferInstanceAs (Decidable (_ ∧ _))

/-- The exponent fits into 64 bits. -/
def IsExponent (e : Int) : Prop := ExponentsFit e e

instance (e : Int) : Decidable (IsExponent e) := inferInstanceAs (Decidable (ExponentsFit e e))

end Decimal

/-! ## Trailing zeros -/

theorem stripZeros_mul (n : Nat) : (stripZeros n).1 * tenPow (stripZeros n).2 = n := by
  fun_induction stripZeros n with
  | case1 n h m k hmk ih =>
    rw [hmk] at ih
    simp only [tenPow_succ, ← Nat.mul_assoc] at ih ⊢
    omega
  | case2 n h => simp [tenPow_zero]

theorem stripZeros_mod_ten {n : Nat} (hn : n ≠ 0) : (stripZeros n).1 % 10 ≠ 0 := by
  fun_induction stripZeros n with
  | case1 n h m k hmk ih =>
    rw [hmk] at ih
    exact ih (by omega)
  | case2 n h => simp only; omega

namespace Decimal

theorem isNormal_normalize (coeff exp : Int) : (normalize coeff exp).IsNormal := by
  unfold normalize
  split
  · exact Or.inl ⟨rfl, rfl⟩
  · next h =>
    refine Or.inr ?_
    have h1 : (stripZeros coeff.natAbs).1 % 10 ≠ 0 :=
      stripZeros_mod_ten (Int.natAbs_ne_zero.2 h)
    rcases Int.lt_or_gt_of_ne h with hneg | hpos
    · simp only [Int.sign_eq_neg_one_of_neg hneg]
      omega
    · simp only [Int.sign_eq_one_of_pos hpos]
      omega

end Decimal

end ExactCalculator
