import ExactCalculator.Proofs.Arithmetic

/-!
# Quotients

A quotient is formed as a whole number with a remainder. The dividend is to be lengthened by
`quotientShift`, so that the whole part has more digits than the precision whatever the lengths of
the operands (`ten_pow_mul_le_lengthened`). It is, as long as this shift can be counted in 32 bits
(`ten_pow_le_wholeQuotient`), and then the remainder decides only whether something follows. Main
statement: `quotient_correctly_rounded`.
-/

namespace ExactCalculator.Decimal

/-! ## Whole quotients of signed numbers -/

/-- The sign and the magnitude of a whole quotient that is not zero, and of the exact one. -/
theorem tdiv_parts {c d : ℤ} (hd : d ≠ 0) (h : d.natAbs ≤ c.natAbs) :
    ((c.tdiv d).sign : ℚ) *
      ((c.tdiv d).natAbs + (c.natAbs % d.natAbs : ℕ) / (d.natAbs : ℚ)) = c / d := by
  have hdn : (d.natAbs : ℚ) ≠ 0 := by exact_mod_cast Int.natAbs_ne_zero.2 hd
  have hdq : (d : ℚ) ≠ 0 := by exact_mod_cast hd
  have hsign : ((c.tdiv d).sign : ℚ) = c.sign * d.sign := by
    rw [Int.sign_tdiv, if_neg (not_lt.2 h), Int.cast_mul]
  have hwhole : (c.natAbs : ℚ) =
      d.natAbs * (c.tdiv d).natAbs + (c.natAbs % d.natAbs : ℕ) := by
    rw [Int.natAbs_tdiv]
    exact_mod_cast (Nat.div_add_mod c.natAbs d.natAbs).symm
  have hsq : (d.sign : ℚ) * d.sign = 1 := by
    rcases Int.lt_or_gt_of_ne hd with hlt | hgt
    · rw [Int.sign_eq_neg_one_of_neg hlt]
      norm_num
    · rw [Int.sign_eq_one_of_pos hgt]
      norm_num
  have hmag : ((c.tdiv d).natAbs + (c.natAbs % d.natAbs : ℕ) / (d.natAbs : ℚ)) =
      c.natAbs / d.natAbs := by
    rw [hwhole]
    field_simp
  have hc : (c : ℚ) = c.sign * c.natAbs := (sign_mul_natAbs_cast c).symm
  have hd' : (d : ℚ) = d.sign * d.natAbs := (sign_mul_natAbs_cast d).symm
  have hds : (d.sign : ℚ) ≠ 0 := by
    intro h0
    rw [h0, zero_mul] at hd'
    exact hdq hd'
  rw [hsign, hmag]
  calc (c.sign : ℚ) * d.sign * (c.natAbs / d.natAbs)
      = c.sign * c.natAbs * (d.sign * d.sign) / (d.sign * d.natAbs) := by
        field_simp
    _ = c / d := by rw [hsq, mul_one, ← hc, ← hd']

theorem tmod_ne_zero_iff (c : ℤ) {d : ℤ} (hd : d ≠ 0) :
    (c.tmod d != 0) = true ↔ (c.natAbs % d.natAbs : ℕ) / (d.natAbs : ℚ) ≠ 0 := by
  have hdn : (d.natAbs : ℚ) ≠ 0 := by exact_mod_cast Int.natAbs_ne_zero.2 hd
  rw [bne_iff_ne, ← Int.natAbs_ne_zero, Int.natAbs_tmod, ne_eq, ne_eq, div_eq_zero_iff,
    or_iff_left hdn, Nat.cast_eq_zero]

/-! ## Enough digits -/

/-- A dividend that is lengthened by the shift holds the divisor more often than the precision has
numbers. -/
theorem ten_pow_mul_le_lengthened (p : Precision) {a : Decimal} (b : Decimal) (ha : a.coeff ≠ 0) :
    10 ^ p.digits * b.coeff.natAbs ≤ a.coeff.natAbs * tenPow (quotientShift p a b) := by
  have hlower := digitsLower_le_digitCount a.coeff.natAbs
  have hupper := digitCount_lt_digitsUpper b.coeff.natAbs
  have hdiv := lt_ten_pow_digitCount b.coeff.natAbs
  have hnum := ten_pow_pred_digitCount_le (Int.natAbs_ne_zero.2 ha)
  have hpos := digitCount_pos a.coeff.natAbs
  have hexp : p.digits + digitCount b.coeff.natAbs ≤
      digitCount a.coeff.natAbs - 1 + quotientShift p a b := by
    rw [quotientShift]
    omega
  calc 10 ^ p.digits * b.coeff.natAbs
      ≤ 10 ^ p.digits * 10 ^ digitCount b.coeff.natAbs := Nat.mul_le_mul_left _ hdiv.le
    _ = 10 ^ (p.digits + digitCount b.coeff.natAbs) := (pow_add _ _ _).symm
    _ ≤ 10 ^ (digitCount a.coeff.natAbs - 1 + quotientShift p a b) :=
      Nat.pow_le_pow_right (by decide) hexp
    _ = 10 ^ (digitCount a.coeff.natAbs - 1) * 10 ^ quotientShift p a b := pow_add _ _ _
    _ ≤ a.coeff.natAbs * tenPow (quotientShift p a b) := Nat.mul_le_mul_right _ hnum

/-- A shift that can be counted is the power of ten by which the dividend grows. -/
theorem dividend_of_isCount {p : Precision} {a b : Decimal} (h : IsCount (quotientShift p a b)) :
    dividend p a b = a.coeff * tenPow (quotientShift p a b) := by
  rw [dividend, Nat.mod_eq_of_lt h]

theorem natAbs_mul_tenPow (c : ℤ) (k : ℕ) : (c * tenPow k).natAbs = c.natAbs * tenPow k := by
  rw [Int.natAbs_mul, Int.natAbs_natCast]

theorem ten_pow_le_wholeQuotient {p : Precision} {a b : Decimal} (ha : a.coeff ≠ 0)
    (hb : b.coeff ≠ 0) :
    10 ^ p.digits ≤ ((a.coeff * tenPow (quotientShift p a b)).tdiv b.coeff).natAbs := by
  rw [Int.natAbs_tdiv, natAbs_mul_tenPow]
  refine (Nat.le_div_iff_mul_le (Nat.pos_of_ne_zero (Int.natAbs_ne_zero.2 hb))).2 ?_
  exact ten_pow_mul_le_lengthened p b ha

/-- The whole quotient has at most the digits of the lengthened dividend. -/
theorem digitCount_wholeQuotient_le (p : Precision) (a b : Decimal) :
    digitCount ((dividend p a b).tdiv b.coeff).natAbs ≤
      digitCount a.coeff.natAbs + quotientShift p a b := by
  have hle := Int.natAbs_tdiv_le_natAbs (dividend p a b) b.coeff
  have hmod := Nat.mod_le (quotientShift p a b) UInt32.size
  rw [dividend, natAbs_mul_tenPow] at hle
  have hcount := (digitCount_mono hle).trans (digitCount_mul_tenPow_le _ _)
  exact hcount.trans (Nat.add_le_add_left hmod _)

theorem dividend_div {p : Precision} {a b : Decimal} (h : IsCount (quotientShift p a b)) :
    ((dividend p a b : ℤ) : ℚ) / b.coeff * 10 ^ (a.exp - b.exp - quotientShift p a b) =
      a.value / b.value := by
  have hshift : (10 : ℚ) ^ (a.exp - b.exp - quotientShift p a b) * 10 ^ quotientShift p a b *
      10 ^ b.exp = 10 ^ a.exp := by
    rw [← zpow_natCast, ← ten_zpow_add, ← ten_zpow_add]
    congr 1
    ring
  have hpos := (ten_zpow_pos b.exp).ne'
  rw [value, value, ← hshift, dividend_of_isCount h, tenPow_eq_pow, Int.cast_mul, Int.cast_natCast,
    Nat.cast_pow, Nat.cast_ofNat]
  field_simp

/-! ## The operation -/

theorem div?_eq_none_iff (p : Precision) (a b : Decimal) : a.div? p b = none ↔ b.value = 0 := by
  rw [value_eq_zero_iff, div?]
  by_cases hb : b.isZero = true
  · simp [hb]
  · by_cases ha : a.isZero = true
    · simp [hb, ha]
    · simp [hb, ha]

/-- The quotient of two numbers other than zero. -/
theorem div?_of_ne_zero {p : Precision} {a b : Decimal} (ha : a.coeff ≠ 0) (hb : b.coeff ≠ 0) :
    a.div? p b = some (round p ((dividend p a b).tdiv b.coeff) (a.exp - b.exp - quotientShift p a b)
      ((dividend p a b).tmod b.coeff != 0)) := by
  have haz : ¬ a.isZero = true := by rwa [isZero, beq_iff_eq]
  have hbz : ¬ b.isZero = true := by rwa [isZero, beq_iff_eq]
  rw [div?, if_neg hbz, if_neg haz]

theorem value_ne_zero_iff (d : Decimal) : d.value ≠ 0 ↔ d.coeff ≠ 0 := by
  rw [Ne, value_eq_zero_iff, isZero, beq_iff_eq]

/-- As long as the digits that are appended and those that are dropped at once can be counted, a
quotient is correctly rounded. -/
theorem div?_correct {p : Precision} {a b : Decimal} (hb : b.value ≠ 0)
    (h : BinaryOperator.div.Fits p a b) :
    ∃ q, a.div? p b = some q ∧ CorrectlyRounded p (a.value / b.value) q := by
  have hbc := (value_ne_zero_iff b).1 hb
  by_cases hac : a.coeff = 0
  · have haz : a.isZero = true := beq_iff_eq.2 hac
    refine ⟨zero, by rw [div?, if_neg (by rwa [← value_eq_zero_iff]), if_pos haz], ?_⟩
    rw [(value_eq_zero_iff a).2 haz, zero_div]
    exact correctlyRounded_zero p
  · have hshift := (h hac hbc).shift
    have hblock := (h hac hbc).rounding.block
    refine ⟨_, div?_of_ne_zero hac hbc, ?_⟩
    have hlong : 10 ^ p.digits ≤ ((dividend p a b).tdiv b.coeff).natAbs := by
      rw [dividend_of_isCount hshift]
      exact ten_pow_le_wholeQuotient hac hbc
    have hbn : 0 < b.coeff.natAbs := Int.natAbs_pos.2 hbc
    have hbq : (0 : ℚ) < b.coeff.natAbs := by exact_mod_cast hbn
    have hlt : ((dividend p a b).natAbs % b.coeff.natAbs : ℕ) / (b.coeff.natAbs : ℚ) < 1 := by
      rw [div_lt_one hbq]
      exact_mod_cast Nat.mod_lt _ hbn
    have hsize : b.coeff.natAbs ≤ (dividend p a b).natAbs := by
      rw [dividend_of_isCount hshift, natAbs_mul_tenPow]
      exact (Nat.le_mul_of_pos_left _ (by positivity)).trans (ten_pow_mul_le_lengthened p b hac)
    have hround := round_inexact_correct hblock
      (Tail.marks_ofInexact (by positivity) hlt (tmod_ne_zero_iff _ hbc)) hlong
      (a.exp - b.exp - quotientShift p a b)
    rwa [← mul_assoc, tdiv_parts hbc hsize, dividend_div hshift] at hround

theorem divChecked_correct {p : Precision} {a b : Decimal} (hb : b.value ≠ 0)
    (h : BinaryOperator.div.Fits p a b) :
    ∃ q, a.divChecked p b = some (some q) ∧ CorrectlyRounded p (a.value / b.value) q := by
  obtain ⟨q, hq, hcorrect⟩ := div?_correct hb h
  exact ⟨q, by rw [divChecked_of_fits h, hq], hcorrect⟩

end ExactCalculator.Decimal
