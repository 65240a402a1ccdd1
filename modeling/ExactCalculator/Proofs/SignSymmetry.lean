import ExactCalculator.Proofs.Comparison
import ExactCalculator.Proofs.Division

/-!
# Signs and the order of operands

Rounding looks at the magnitude of a coefficient only (`round_neg`), whole quotients are cut towards
zero, and alignment treats both operands alike (`align_comm`, `align_neg`). So arithmetic is
symmetric in sign and sums and products do not depend on the order of their operands, at every gap
of the exponents, also where it, or a number of digits, is too great to be counted in 32 bits. Main
statement: `arithmetic_symmetric`.
-/

namespace ExactCalculator.Decimal

protected theorem neg_neg (d : Decimal) : d.neg.neg = d := by
  simp only [neg, Int.neg_neg]

/-! ## Rounding -/

theorem normalize_neg (c e : ℤ) : normalize (-c) e = (normalize c e).neg := by
  by_cases hc : c = 0
  · subst hc
    rfl
  · rw [normalize, if_neg (Int.neg_ne_zero.2 hc), normalize, if_neg hc]
    simp only [neg, Int.natAbs_neg, Int.sign_neg, Int.neg_mul]

theorem roundingCut_neg (p : Precision) (coeff : ℤ) (inexact : Bool) :
    roundingCut p (-coeff) inexact = roundingCut p coeff inexact := by
  simp only [roundingCut, blockSize, Cut.whole, Int.natAbs_neg]

theorem round_neg (p : Precision) (coeff exp : ℤ) (inexact : Bool) :
    round p (-coeff) exp inexact = (round p coeff exp inexact).neg := by
  rw [round, roundingCut_neg, round, ofCut, ofCut, Int.sign_neg, Int.neg_mul, normalize_neg]

theorem rounded_neg (p : Precision) (a : Decimal) : a.neg.rounded p = (a.rounded p).neg :=
  round_neg p a.coeff a.exp false

section

variable (p : Precision) (a b : Decimal)

/-! ## Alignment -/

theorem alignmentShift_comm : alignmentShift b a = alignmentShift a b := by
  have hgap : (b.exp - a.exp).natAbs = (a.exp - b.exp).natAbs := by omega
  rw [alignmentShift, hgap, alignmentShift]

/-- With equal exponents neither coefficient grows. -/
theorem align_comm : align b a = ((align a b).2.1, (align a b).1, (align a b).2.2) := by
  rw [align, align, alignmentShift_comm]
  rcases lt_trichotomy a.exp b.exp with hlt | heq | hgt
  · rw [if_neg hlt.not_gt, if_pos hlt]
  · have hshift : alignmentShift a b = 0 := by
      rw [alignmentShift, heq, sub_self]
      rfl
    rw [if_neg heq.not_gt, if_neg heq.not_lt, hshift, tenPow_zero, heq]
    simp only [Nat.cast_one, mul_one]
  · rw [if_pos hgt, if_neg hgt.not_gt]

theorem align_neg :
    align a.neg b.neg = (-(align a b).1, -(align a b).2.1, (align a b).2.2) := by
  have hshift : alignmentShift a.neg b.neg = alignmentShift a b := rfl
  rw [align, align, hshift]
  by_cases hlt : a.exp < b.exp
  · rw [if_pos (show a.neg.exp < b.neg.exp from hlt), if_pos hlt]
    simp only [neg, neg_mul]
  · rw [if_neg (show ¬a.neg.exp < b.neg.exp from hlt), if_neg hlt]
    simp only [neg, neg_mul]

/-! ## Sums and differences -/

protected theorem add_comm : a.add p b = b.add p a := by
  rw [add, add, align_comm a b]
  simp only [Int.add_comm]

theorem add_neg_neg : a.neg.add p b.neg = (a.add p b).neg := by
  rw [add, add, align_neg]
  simp only [← Int.neg_add, round_neg]

protected theorem neg_sub : (b.sub p a).neg = a.sub p b := by
  rw [← add_neg, ← add_neg_neg, Decimal.neg_neg, Decimal.add_comm, add_neg]

/-! ## Products -/

protected theorem mul_comm : a.mul p b = b.mul p a := by
  rw [mul, mul, Int.mul_comm, Int.add_comm]

protected theorem neg_mul : a.neg.mul p b = (a.mul p b).neg := by
  rw [mul, mul, ← round_neg, ← Int.neg_mul]
  rfl

protected theorem mul_neg : a.mul p b.neg = (a.mul p b).neg := by
  rw [Decimal.mul_comm, Decimal.neg_mul, Decimal.mul_comm]

/-! ## Quotients -/

theorem isZero_neg : a.neg.isZero = a.isZero := by
  rw [Bool.eq_iff_iff, isZero, isZero, beq_iff_eq, beq_iff_eq]
  exact Int.neg_eq_zero

theorem quotientShift_neg : quotientShift p a.neg b = quotientShift p a b ∧
    quotientShift p a b.neg = quotientShift p a b := by
  simp only [quotientShift, neg, Int.natAbs_neg, and_self]

theorem dividend_neg : dividend p a.neg b = -dividend p a b ∧
    dividend p a b.neg = dividend p a b := by
  obtain ⟨ha, hb⟩ := quotientShift_neg p a b
  rw [dividend, dividend, dividend, ha, hb]
  exact ⟨Int.neg_mul _ _, rfl⟩

/-- A whole quotient is cut towards zero, so it changes its sign only, and so does the remainder. -/
theorem round_neg_tdiv (c d e : ℤ) :
    round p ((-c).tdiv d) e ((-c).tmod d != 0) = (round p (c.tdiv d) e (c.tmod d != 0)).neg := by
  have hrest : (-(c.tmod d) != 0) = (c.tmod d != 0) := by
    rw [Bool.eq_iff_iff, bne_iff_ne, bne_iff_ne]
    exact neg_ne_zero
  rw [Int.neg_tdiv, Int.neg_tmod, hrest, round_neg]

theorem neg_div? : a.neg.div? p b = (a.div? p b).map neg := by
  rw [div?, div?, isZero_neg, (quotientShift_neg p a b).1, (dividend_neg p a b).1]
  split
  · rfl
  · split
    · rfl
    · rw [Option.map_some, ← round_neg_tdiv]
      rfl

theorem div?_neg : a.div? p b.neg = (a.div? p b).map neg := by
  rw [div?, div?, isZero_neg, (quotientShift_neg p a b).2, (dividend_neg p a b).2]
  split
  · rfl
  · split
    · rfl
    · rw [Option.map_some, ← round_neg]
      simp only [neg, Int.tdiv_neg, Int.tmod_neg]

end

/-- Sums and products do not depend on the order of the operands, and every operation passes on the
signs of its operands, whatever the numbers and their exponents are. -/
theorem arithmetic_symmetric (p : Precision) (a b : Decimal) :
    a.add p b = b.add p a ∧ a.mul p b = b.mul p a ∧
      a.sub p b = a.add p b.neg ∧ a.sub p b = (b.sub p a).neg ∧
      a.neg.add p b.neg = (a.add p b).neg ∧
      a.neg.mul p b = (a.mul p b).neg ∧ a.mul p b.neg = (a.mul p b).neg ∧
      a.neg.rounded p = (a.rounded p).neg ∧
      (b.value ≠ 0 → ∃ q, a.div? p b = some q ∧ a.neg.div? p b = some q.neg ∧
        a.div? p b.neg = some q.neg) := by
  refine ⟨Decimal.add_comm p a b, Decimal.mul_comm p a b, (add_neg p a b).symm,
    (Decimal.neg_sub p a b).symm, add_neg_neg p a b, Decimal.neg_mul p a b, Decimal.mul_neg p a b,
    rounded_neg p a, ?_⟩
  intro hb
  obtain ⟨q, hq⟩ := Option.ne_none_iff_exists'.1 (mt (div?_eq_none_iff p a b).1 hb)
  refine ⟨q, hq, ?_, ?_⟩
  · rw [neg_div?, hq, Option.map_some]
  · rw [div?_neg, hq, Option.map_some]

/-- At one digit `2 / 0.8` is a tie, which goes to two on both sides of zero. -/
theorem tied_quotient_symmetric :
    (⟨8, -1⟩ : Decimal).value ≠ 0 ∧ (⟨2, 0⟩ : Decimal).div? (.clamp 1) ⟨8, -1⟩ = some ⟨2, 0⟩ ∧
      (⟨-2, 0⟩ : Decimal).div? (.clamp 1) ⟨8, -1⟩ = some ⟨-2, 0⟩ ∧
      (⟨2, 0⟩ : Decimal).div? (.clamp 1) ⟨-8, -1⟩ = some ⟨-2, 0⟩ := by
  have hdivisor : (⟨8, -1⟩ : Decimal).value ≠ 0 := by norm_num [value]
  obtain ⟨-, -, -, -, -, -, -, -, hquotient⟩ := arithmetic_symmetric (.clamp 1) ⟨2, 0⟩ ⟨8, -1⟩
  obtain ⟨q, hq, hdividend, hdivisor'⟩ := hquotient hdivisor
  have htwo : (⟨2, 0⟩ : Decimal).div? (.clamp 1) ⟨8, -1⟩ = some ⟨2, 0⟩ := by decide +kernel
  obtain rfl := Option.some.inj (htwo.symm.trans hq)
  exact ⟨hdivisor, hq, hdividend, hdivisor'⟩

end ExactCalculator.Decimal
