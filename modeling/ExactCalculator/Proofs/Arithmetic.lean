import ExactCalculator.Proofs.Exponents.Fits
import ExactCalculator.Proofs.Rounding.Correct

/-!
# Sums, differences and products

Each operation denotes the exact result, rounded once, as long as the digits that rounding drops at
once can be counted and, for sums and differences, the gap of the exponents too (`rounded_correct`,
`mul_correct`, `add_correct`, `sub_correct`). Aligning two numbers keeps their values below a gap of
`2 ^ 32` (`align_spec`). Main statement: `arithmetic_correctly_rounded`.

It is false without the count of the digits: a sum of two numbers with a gap of less than `2 ^ 32`
may have more digits than can be counted, and is then raised by `2 ^ 32` places (`long_sum_raised`).
-/

namespace ExactCalculator.Decimal

/-! ## Alignment -/

theorem value_mul_tenPow (d : Decimal) {e : ℤ} (h : e ≤ d.exp) :
    d.value = (d.coeff * tenPow (d.exp - e).natAbs : ℤ) * 10 ^ e := by
  obtain ⟨n, hn⟩ := Int.le.dest h
  have hgap : (d.exp - e).natAbs = n := by omega
  rw [hgap, tenPow_eq_pow, value, ← hn, ten_zpow_add, zpow_natCast]
  push_cast
  ring

theorem digitCount_mul_tenPow_top (d : Decimal) {e : ℤ} (h : e ≤ d.exp) :
    e + digitCount (d.coeff * tenPow (d.exp - e).natAbs : ℤ).natAbs ≤ d.top := by
  have hle := digitCount_mul_tenPow_le d.coeff.natAbs (d.exp - e).natAbs
  rw [Int.natAbs_mul, Int.natAbs_natCast, top]
  omega

theorem alignmentShift_of_lt {a b : Decimal} (h : |a.exp - b.exp| < 2 ^ 32) :
    alignmentShift a b = (a.exp - b.exp).natAbs := by
  rw [Int.abs_eq_natAbs] at h
  rw [alignmentShift, Nat.mod_eq_of_lt]
  rw [UInt32.size]
  omega

/-- The two coefficients at the smaller exponent still denote the two numbers. -/
theorem align_spec {a b : Decimal} (h : |a.exp - b.exp| < 2 ^ 32) :
    ∃ x y : ℤ, align a b = (x, y, min a.exp b.exp) ∧
      a.value = x * 10 ^ min a.exp b.exp ∧ b.value = y * 10 ^ min a.exp b.exp ∧
      min a.exp b.exp + digitCount x.natAbs ≤ a.top ∧
      min a.exp b.exp + digitCount y.natAbs ≤ b.top := by
  rw [align, alignmentShift_of_lt h]
  by_cases hlt : a.exp < b.exp
  · have hgap : (a.exp - b.exp).natAbs = (b.exp - a.exp).natAbs := by omega
    rw [if_pos hlt, min_eq_left hlt.le, hgap]
    exact ⟨_, _, rfl, rfl, value_mul_tenPow b hlt.le, le_rfl, digitCount_mul_tenPow_top b hlt.le⟩
  · have hle := not_lt.1 hlt
    rw [if_neg hlt, min_eq_right hle]
    exact ⟨_, _, rfl, value_mul_tenPow a hle, rfl, digitCount_mul_tenPow_top a hle, le_rfl⟩

/-! ## The operations -/

section

variable {p : Precision} {a b : Decimal}

theorem rounded_correct (h : IsCount (blockSize p a.coeff)) :
    CorrectlyRounded p a.value (a.rounded p) := round_correct h a.exp

theorem mul_correct (h : IsCount (blockSize p (a.coeff * b.coeff))) :
    CorrectlyRounded p (a.value * b.value) (a.mul p b) := by
  have hvalue : a.value * b.value =
      ((a.coeff * b.coeff : ℤ) : ℚ) * 10 ^ (a.exp + b.exp) := by
    rw [value, value, ten_zpow_add, Int.cast_mul]
    ring
  rw [hvalue]
  exact round_correct h (a.exp + b.exp)

theorem add_correct (hgap : |a.exp - b.exp| < 2 ^ 32)
    (h : IsCount (blockSize p ((align a b).1 + (align a b).2.1))) :
    CorrectlyRounded p (a.value + b.value) (a.add p b) := by
  obtain ⟨x, y, halign, ha, hb, -, -⟩ := align_spec hgap
  rw [halign] at h
  rw [add, halign, ha, hb, ← add_mul, ← Int.cast_add]
  exact round_correct h _

theorem sub_correct (hgap : |a.exp - b.exp| < 2 ^ 32)
    (h : IsCount (blockSize p ((align a b).1 - (align a b).2.1))) :
    CorrectlyRounded p (a.value - b.value) (a.sub p b) := by
  obtain ⟨x, y, halign, ha, hb, -, -⟩ := align_spec hgap
  rw [halign] at h
  rw [sub, halign, ha, hb, ← sub_mul, ← Int.cast_sub]
  exact round_correct h _

theorem AlignmentFits.gap_lt (h : AlignmentFits a b) : |a.exp - b.exp| < 2 ^ 32 := by
  have hcount := h.count
  rw [IsCount, UInt32.size] at hcount
  rw [Int.abs_eq_natAbs]
  omega

/-! ## The operations that stop -/

theorem roundedChecked_correct (h : RoundingFits p a.coeff a.exp false) :
    ∃ r, a.roundedChecked p = some r ∧ CorrectlyRounded p a.value r :=
  ⟨_, h.roundChecked, rounded_correct h.block⟩

theorem mulChecked_correct (h : BinaryOperator.mul.Fits p a b) :
    ∃ r, a.mulChecked p b = some r ∧ CorrectlyRounded p (a.value * b.value) r :=
  ⟨_, mulChecked_of_fits h, mul_correct (RoundingFits.block h)⟩

theorem addChecked_correct (h : BinaryOperator.add.Fits p a b) :
    ∃ r, a.addChecked p b = some r ∧ CorrectlyRounded p (a.value + b.value) r :=
  ⟨_, addChecked_of_fits h, add_correct h.1.gap_lt h.2.block⟩

theorem subChecked_correct (h : BinaryOperator.sub.Fits p a b) :
    ∃ r, a.subChecked p b = some r ∧ CorrectlyRounded p (a.value - b.value) r :=
  ⟨_, subChecked_of_fits h, sub_correct h.1.gap_lt h.2.block⟩

end

/-- Rounding, products, sums and differences denote the exact result rounded to the precision, for
coefficients of any length, as long as all exponents on the way fit into 64 bits, the digits that
are dropped at once can be counted in 32 bits and, for sums and differences, so can the gap of the
exponents. A result that fits the precision is exact; a number in normal form that fits is not
changed at all. -/
theorem arithmetic_correctly_rounded (p : Precision) (a b : Decimal) :
    (RoundingFits p a.coeff a.exp false → ∃ r, a.roundedChecked p = some r ∧
      CorrectlyRounded p a.value r ∧ (a.IsNormal → HasDigits p.digits a.value → r = a)) ∧
    (BinaryOperator.mul.Fits p a b → ∃ r, a.mulChecked p b = some r ∧
      CorrectlyRounded p (a.value * b.value) r) ∧
    (BinaryOperator.add.Fits p a b → ∃ r, a.addChecked p b = some r ∧
      CorrectlyRounded p (a.value + b.value) r) ∧
    (BinaryOperator.sub.Fits p a b → ∃ r, a.subChecked p b = some r ∧
      CorrectlyRounded p (a.value - b.value) r) := by
  refine ⟨?_, mulChecked_correct, addChecked_correct, subChecked_correct⟩
  intro h
  obtain ⟨r, hr, hcorrect⟩ := roundedChecked_correct h
  exact ⟨r, hr, hcorrect, fun hn hd => eq_of_value_eq hcorrect.normal hn (hcorrect.exact hd)⟩

/-- A sum of 29 digits at 28 digits. -/
theorem long_sum_correctly_rounded :
    ∃ r, (⟨1, 28⟩ : Decimal).addChecked .standard ⟨15, 0⟩ = some r ∧
      CorrectlyRounded .standard (10 ^ 28 + 15) r := by
  have hsum := (arithmetic_correctly_rounded .standard ⟨1, 28⟩ ⟨15, 0⟩).2.2.1 (by decide +kernel)
  have hvalue : (⟨1, 28⟩ : Decimal).value + (⟨15, 0⟩ : Decimal).value = 10 ^ 28 + 15 := by
    norm_num [value]
  rwa [hvalue] at hsum

/-! ## More digits than can be counted -/

/-- With the greatest gap that can be counted, one is added to a number of 200 digits. The sum has
so many digits that those dropped at once cannot be counted any more. -/
theorem blockSize_long_sum {n : ℕ} (hn : n + 1 = 2 ^ 32) :
    overcount (blockSize .standard ((10 ^ 199 + 1) * tenPow n + 1)) = 2 ^ 32 ∧
      digitCount ((10 ^ 199 + 1) * tenPow n + 1 : ℤ).natAbs ≤ 201 + n := by
  have hnat : ((10 ^ 199 + 1) * tenPow n + 1 : ℤ).natAbs = (10 ^ 199 + 1) * tenPow n + 1 := by
    exact_mod_cast Int.natAbs_natCast ((10 ^ 199 + 1) * tenPow n + 1)
  have hupper : digitCount ((10 ^ 199 + 1) * tenPow n + 1) ≤ 201 + n := by
    have hsum := digitCount_add_le ((10 ^ 199 + 1) * tenPow n) 1
    have hproduct := digitCount_mul_tenPow_le (10 ^ 199 + 1) n
    have hcoeff : digitCount (10 ^ 199 + 1) ≤ 200 :=
      (digitCount_le_iff (by decide)).2 (by decide +kernel)
    have hone : digitCount 1 = 1 := rfl
    omega
  have hlower : 199 + n < digitCount ((10 ^ 199 + 1) * tenPow n + 1) := by
    refine lt_digitCount_of_le ?_
    rw [pow_add, tenPow_eq_pow]
    generalize 10 ^ n = t
    omega
  have hle := digitsLower_le_digitCount ((10 ^ 199 + 1) * tenPow n + 1)
  have hge := digitCount_le_digitsLower ((10 ^ 199 + 1) * tenPow n + 1)
  have hdigits : Precision.standard.digits = 28 := rfl
  rw [blockSize, hnat, overcount, UInt32.size, hdigits]
  constructor <;> omega

/-- One is added at a gap that can be counted. -/
theorem add_one_eq (p : Precision) (c : ℤ) {n : ℕ} (hn : n < 2 ^ 32) :
    align ⟨c, n⟩ ⟨1, 0⟩ = (c * tenPow n, 1, 0) ∧
      (⟨c, n⟩ : Decimal).add p ⟨1, 0⟩ = round p (c * tenPow n + 1) 0 false ∧
      (⟨c, n⟩ : Decimal).value + (⟨1, 0⟩ : Decimal).value =
        (c * tenPow n + 1 : ℤ) * 10 ^ (0 : ℤ) := by
  have hshift : alignmentShift ⟨c, n⟩ ⟨1, 0⟩ = n := by
    rw [alignmentShift_of_lt] <;> simp only [sub_zero, Int.natAbs_natCast, Nat.abs_cast]
    exact_mod_cast hn
  have halign : align ⟨c, n⟩ ⟨1, 0⟩ = (c * tenPow n, 1, 0) := by
    rw [align, hshift, if_neg (by simp)]
  refine ⟨halign, by rw [add, halign], ?_⟩
  rw [value, value, tenPow_eq_pow, zpow_natCast]
  push_cast
  ring

theorem add_one_raised {n : ℕ} (hn : n + 1 = 2 ^ 32) :
    ∃ s, CorrectlyRounded .standard
        ((⟨10 ^ 199 + 1, n⟩ : Decimal).value + (⟨1, 0⟩ : Decimal).value) s ∧
      (⟨10 ^ 199 + 1, n⟩ : Decimal).addChecked .standard ⟨1, 0⟩ =
        some ⟨s.coeff, s.exp + 2 ^ 32⟩ := by
  obtain ⟨hover, hlong⟩ := blockSize_long_sum hn
  obtain ⟨halign, hadd, hvalue⟩ := add_one_eq .standard (10 ^ 199 + 1) (n := n) (by omega)
  have hpos : (0 : ℤ) < (10 ^ 199 + 1) * tenPow n + 1 := by positivity
  rw [hvalue]
  generalize ((10 ^ 199 + 1) * tenPow n + 1 : ℤ) = m at hadd hover hlong hpos
  have hcut := Cut.dropped_add_digitCount_le Precision.standard.one_le m false
  have hnearest := Cut.nearest_shorten_pos Precision.standard.one_le (c := Cut.whole m false)
    (Int.natAbs_pos.2 hpos.ne')
  have hround := round_eq .standard m 0 false
  rw [hover, ofCut_add hpos.ne' hnearest.ne'] at hround
  obtain ⟨hlow, hhigh⟩ := exp_ofCut hpos.ne' hnearest.ne' 0
  refine ⟨_, shorten_correct .standard m 0, ?_⟩
  rw [addChecked_eq_some_iff, halign, hadd, hround]
  refine ⟨?_, show IsExponent 0 by decide, rfl, ?_⟩ <;> constructor <;> simp only <;> omega

/-- At the greatest gap that is below `2 ^ 32`, a sum of two numbers in normal form, for which no
exponent leaves its 64 bits, is the rounded sum raised by `2 ^ 32` places. -/
theorem long_sum_raised :
    (⟨10 ^ 199 + 1, 4294967295⟩ : Decimal).IsNormal ∧ (⟨1, 0⟩ : Decimal).IsNormal ∧
      |(4294967295 : ℤ) - 0| < 2 ^ 32 ∧
      ∃ r s, (⟨10 ^ 199 + 1, 4294967295⟩ : Decimal).addChecked .standard ⟨1, 0⟩ = some r ∧
        CorrectlyRounded .standard
          ((⟨10 ^ 199 + 1, 4294967295⟩ : Decimal).value + (⟨1, 0⟩ : Decimal).value) s ∧
        r = ⟨s.coeff, s.exp + 2 ^ 32⟩ ∧
        ¬ CorrectlyRounded .standard
          ((⟨10 ^ 199 + 1, 4294967295⟩ : Decimal).value + (⟨1, 0⟩ : Decimal).value) r := by
  refine ⟨by decide +kernel, by decide, by decide, ?_⟩
  obtain ⟨s, hs, hr⟩ := add_one_raised (n := 4294967295) (by norm_num)
  refine ⟨_, s, hr, hs, rfl, ?_⟩
  intro h
  have hexp := congrArg Decimal.exp (hs.unique h)
  simp only at hexp
  omega

end ExactCalculator.Decimal
