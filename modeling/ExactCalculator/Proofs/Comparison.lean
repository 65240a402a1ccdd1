import ExactCalculator.Proofs.Arithmetic
import ExactCalculator.Proofs.NormalForm

/-!
# What a difference tells

Rounding keeps the sign (`sign_coeff_round`), so a difference has the sign of the aligned
coefficients. These denote the two numbers with the larger exponent brought within `2 ^ 32` of the
other, by a multiple of `2 ^ 32` (`nearer`, `align_values`). Up to this gap nothing is moved, and a
difference decides equality and order. Beyond it the moved numbers are compared: numbers in normal
form then pass for equal exactly when their coefficients are the same and their exponents differ by
a multiple of `2 ^ 32` (`isZero_sub_iff`). Main statement: `difference_decides`; it is false without
its bound (`distant_difference_zero`).
-/

namespace ExactCalculator

namespace Decimal

/-! ## Rounding keeps the sign -/

theorem sign_coeff_normalize (c e : ℤ) : (normalize c e).coeff.sign = c.sign := by
  by_cases hc : c = 0
  · subst hc
    rfl
  · have hstrip := stripZeros_mul c.natAbs
    have hne : (stripZeros c.natAbs).1 ≠ 0 := by
      intro h0
      rw [h0, Nat.zero_mul] at hstrip
      exact hc (Int.natAbs_eq_zero.1 hstrip.symm)
    rw [normalize, if_neg hc]
    simp only [Int.sign_mul, Int.sign_sign, Int.sign_natCast_of_ne_zero hne, mul_one]

theorem sign_coeff_round (p : Precision) (coeff exp : ℤ) (inexact : Bool) :
    (round p coeff exp inexact).coeff.sign = coeff.sign := by
  rw [round_eq, ofCut, sign_coeff_normalize]
  by_cases hc : coeff = 0
  · rw [hc, Int.sign_zero, zero_mul, Int.sign_zero]
  · have hpos := Cut.nearest_shorten_pos p.one_le (c := Cut.whole coeff inexact)
      (Int.natAbs_pos.2 hc)
    rw [Int.sign_mul, Int.sign_sign, Int.sign_natCast_of_ne_zero hpos.ne', mul_one]

theorem isZero_round (p : Precision) (coeff exp : ℤ) (inexact : Bool) :
    (round p coeff exp inexact).isZero = true ↔ coeff = 0 := by
  rw [isZero, beq_iff_eq, ← Int.sign_eq_zero_iff_zero, sign_coeff_round, Int.sign_eq_zero_iff_zero]

theorem isNegative_round (p : Precision) (coeff exp : ℤ) (inexact : Bool) :
    (round p coeff exp inexact).isNegative = true ↔ coeff < 0 := by
  rw [isNegative, decide_eq_true_iff, ← Int.sign_eq_neg_one_iff_neg, sign_coeff_round,
    Int.sign_eq_neg_one_iff_neg]

/-! ## What the aligned coefficients denote -/

/-- The first number with an exponent less than `2 ^ 32` above that of the second one: an exponent
that is greater moves by a multiple of `2 ^ 32`. -/
def nearer (a b : Decimal) : Decimal :=
  ⟨a.coeff, min a.exp b.exp + ((a.exp - b.exp).toNat % 2 ^ 32 : ℕ)⟩

theorem nearer_of_lt {a b : Decimal} (h : |a.exp - b.exp| < 2 ^ 32) : nearer a b = a := by
  rw [abs_lt] at h
  have hexp : min a.exp b.exp + ((a.exp - b.exp).toNat % 2 ^ 32 : ℕ) = a.exp := by omega
  rw [nearer, hexp]

theorem value_mk_add (c e : ℤ) (k : ℕ) :
    (⟨c, e + k⟩ : Decimal).value = (c * tenPow k : ℤ) * 10 ^ e := by
  rw [value, ten_zpow_add, zpow_natCast, tenPow_eq_pow]
  push_cast
  ring

theorem align_values (a b : Decimal) : ∃ x y : ℤ, align a b = (x, y, min a.exp b.exp) ∧
    (nearer a b).value = x * 10 ^ min a.exp b.exp ∧
      (nearer b a).value = y * 10 ^ min a.exp b.exp := by
  have hsize : UInt32.size = 2 ^ 32 := rfl
  rw [align, nearer, nearer, value_mk_add, value_mk_add, min_comm b.exp]
  by_cases hlt : a.exp < b.exp
  · have hshift : (b.exp - a.exp).toNat % 2 ^ 32 = alignmentShift a b := by
      rw [alignmentShift, hsize]
      omega
    have hzero : (a.exp - b.exp).toNat % 2 ^ 32 = 0 := by omega
    rw [if_pos hlt, min_eq_left hlt.le, hshift, hzero, tenPow_zero]
    exact ⟨_, _, rfl, by simp, rfl⟩
  · have hshift : (a.exp - b.exp).toNat % 2 ^ 32 = alignmentShift a b := by
      rw [alignmentShift, hsize]
      omega
    have hzero : (b.exp - a.exp).toNat % 2 ^ 32 = 0 := by omega
    rw [if_neg hlt, min_eq_right (not_lt.1 hlt), hshift, hzero, tenPow_zero]
    exact ⟨_, _, rfl, rfl, by simp⟩

/-! ## Equality and order -/

/-- Adding the opposite is subtracting. -/
theorem add_neg (p : Precision) (a b : Decimal) : a.add p b.neg = a.sub p b := by
  have hshift : alignmentShift a b.neg = alignmentShift a b := rfl
  rw [add, sub, align, align, hshift]
  by_cases hlt : a.exp < b.exp
  · rw [if_pos (show a.exp < b.neg.exp from hlt), if_pos hlt]
    simp only [neg, neg_mul, Int.sub_eq_add_neg]
  · rw [if_neg (show ¬a.exp < b.neg.exp from hlt), if_neg hlt]
    simp only [neg, Int.sub_eq_add_neg]

theorem isZero_sub_iff_value (p : Precision) (a b : Decimal) :
    (a.sub p b).isZero = true ↔ (nearer a b).value = (nearer b a).value := by
  obtain ⟨x, y, halign, hx, hy⟩ := align_values a b
  have hpos : (10 : ℚ) ^ min a.exp b.exp ≠ 0 := by positivity
  rw [sub, halign, hx, hy, mul_left_inj' hpos, Int.cast_inj]
  simp only [isZero_round, sub_eq_zero]

theorem isNegative_sub_iff_value (p : Precision) (a b : Decimal) :
    (a.sub p b).isNegative = true ↔ (nearer a b).value < (nearer b a).value := by
  obtain ⟨x, y, halign, hx, hy⟩ := align_values a b
  have hpos : (0 : ℚ) < 10 ^ min a.exp b.exp := by positivity
  rw [sub, halign, hx, hy, mul_lt_mul_iff_left₀ hpos, Int.cast_lt]
  simp only [isNegative_round, sub_neg]

theorem IsNormal.exp_eq_zero {d : Decimal} (h : d.IsNormal) (hd : d.coeff = 0) : d.exp = 0 :=
  (h.resolve_right (by simp [hd])).2

theorem IsNormal.nearer {a : Decimal} (h : a.IsNormal) (ha : a.coeff ≠ 0) (b : Decimal) :
    (nearer a b).IsNormal :=
  Or.inr (h.resolve_left fun h0 => ha h0.1)

/-- Different numbers pass for equal when their coefficients are the same and their exponents
differ by a multiple of `2 ^ 32`. -/
theorem isZero_sub_iff {p : Precision} {a b : Decimal} (ha : a.IsNormal) (hb : b.IsNormal) :
    (a.sub p b).isZero = true ↔ a.coeff = b.coeff ∧ (2 ^ 32 : ℤ) ∣ a.exp - b.exp := by
  rw [isZero_sub_iff_value]
  constructor
  · intro h
    have hcoeff : a.coeff = 0 ↔ b.coeff = 0 := by
      have hzero := value_eq_zero_iff (nearer a b)
      rwa [h, value_eq_zero_iff, isZero, isZero, beq_iff_eq, beq_iff_eq, iff_comm] at hzero
    by_cases ha0 : a.coeff = 0
    · have hb0 := hcoeff.1 ha0
      refine ⟨ha0.trans hb0.symm, ?_⟩
      rw [ha.exp_eq_zero ha0, hb.exp_eq_zero hb0]
      simp
    · have heq := eq_of_value_eq (ha.nearer ha0 b) (hb.nearer (mt hcoeff.2 ha0) a) h
      obtain ⟨hsame, hexp⟩ := Decimal.mk.inj heq
      exact ⟨hsame, by omega⟩
  · rintro ⟨hcoeff, hdvd⟩
    have hexp : min a.exp b.exp + ((a.exp - b.exp).toNat % 2 ^ 32 : ℕ) =
        min b.exp a.exp + ((b.exp - a.exp).toNat % 2 ^ 32 : ℕ) := by omega
    rw [Decimal.nearer, Decimal.nearer, hcoeff, hexp]

/-- Up to a gap of `2 ^ 32` a difference decides equality and order. -/
theorem sub_decides {p : Precision} {a b : Decimal} (ha : a.IsNormal) (hb : b.IsNormal)
    (hgap : |a.exp - b.exp| < 2 ^ 32) :
    ((a.sub p b).isZero = true ↔ a = b) ∧
      ((a.sub p b).isNegative = true ↔ a.value < b.value) := by
  have hgap' : |b.exp - a.exp| < 2 ^ 32 := by rwa [abs_sub_comm]
  rw [isZero_sub_iff_value, isNegative_sub_iff_value, nearer_of_lt hgap, nearer_of_lt hgap']
  exact ⟨⟨eq_of_value_eq ha hb, fun h => by rw [h]⟩, Iff.rfl⟩

end Decimal

open Decimal

/-- The sign of a difference, or of the sum with the opposite, of two numbers that were made in any
way: with exponents less than `2 ^ 32` apart it tells whether they are equal and which one is
smaller. In general it compares the numbers with the larger exponent brought within this gap, and
then numbers pass for equal when their coefficients are the same and their exponents differ by a
multiple of `2 ^ 32`. -/
theorem difference_decides {makings makings' : List Making} {a b : Decimal}
    (ha : a ∈ makeAll [] makings) (hb : b ∈ makeAll [] makings') (p : Precision) :
    (|a.exp - b.exp| < 2 ^ 32 →
      ((a.sub p b).isZero = true ↔ a = b) ∧
      ((a.sub p b).isNegative = true ↔ a.value < b.value) ∧
      ((a.add p b.neg).isZero = true ↔ a = b) ∧
      ((a.add p b.neg).isNegative = true ↔ a.value < b.value)) ∧
    ((a.sub p b).isZero = true ↔ a.coeff = b.coeff ∧ (2 ^ 32 : ℤ) ∣ a.exp - b.exp) ∧
    ((a.sub p b).isNegative = true ↔ (nearer a b).value < (nearer b a).value) ∧
    a.add p b.neg = a.sub p b := by
  have hna := isNormal_of_mem_makeAll (by simp) makings a ha
  have hnb := isNormal_of_mem_makeAll (by simp) makings' b hb
  refine ⟨?_, isZero_sub_iff hna hnb, isNegative_sub_iff_value p a b, add_neg p a b⟩
  intro hgap
  rw [add_neg]
  obtain ⟨hzero, hnegative⟩ := sub_decides (p := p) hna hnb hgap
  exact ⟨hzero, hnegative, hzero, hnegative⟩

/-- Ten, squared again and again. -/
def squarings (n : ℕ) : List Making :=
  .parse "10" :: (List.range n).map fun i => .binary .standard .mul i i

theorem value_digit_lt {c : ℤ} (hc : c < 10) {e : ℤ} (he : 1 ≤ e) :
    (⟨c, 0⟩ : Decimal).value < (⟨1, e⟩ : Decimal).value := by
  have hdigit : (c : ℚ) < 10 := by exact_mod_cast hc
  calc (⟨c, 0⟩ : Decimal).value = c := by simp [value]
    _ < 10 ^ (1 : ℤ) := by rwa [zpow_one]
    _ ≤ 10 ^ e := ten_zpow_le.2 he
    _ = (⟨1, e⟩ : Decimal).value := by simp [value]

/-- At a gap of `2 ^ 31` the difference of the two numbers, of which one has more than two billion
digits, is not zero and not negative. -/
theorem difference_below_bound :
    ⟨1, 2 ^ 31⟩ ∈ makeAll [] (squarings 31) ∧ ⟨7, 0⟩ ∈ makeAll [] [.ofInt 7] ∧
      |(2 ^ 31 : ℤ) - 0| < 2 ^ 32 ∧
      ((⟨1, 2 ^ 31⟩ : Decimal).sub .standard ⟨7, 0⟩).isZero = false ∧
      ((⟨1, 2 ^ 31⟩ : Decimal).sub .standard ⟨7, 0⟩).isNegative = false := by
  have ha : ⟨1, 2 ^ 31⟩ ∈ makeAll [] (squarings 31) := by decide +kernel
  have hb : ⟨7, 0⟩ ∈ makeAll [] [.ofInt 7] := by decide +kernel
  have hgap : |(2 ^ 31 : ℤ) - 0| < 2 ^ 32 := by decide
  obtain ⟨hzero, hnegative, -, -⟩ := (difference_decides ha hb .standard).1 hgap
  have hlt := value_digit_lt (c := 7) (by decide) (e := 2 ^ 31) (by decide)
  refine ⟨ha, hb, hgap, ?_, ?_⟩
  · rw [Bool.eq_false_iff, ne_eq, hzero]
    decide
  · rw [Bool.eq_false_iff, ne_eq, hnegative]
    exact hlt.le.not_gt

/-- Without the bound on the gap a difference decides nothing: from the power of ten with the
exponent `2 ^ 32` one is subtracted and zero is left, so that dividing by the difference fails; two
is subtracted and less than zero is left. -/
theorem distant_difference_zero :
    ∃ a, a ∈ makeAll [] (squarings 32) ∧ ⟨1, 0⟩ ∈ makeAll [] [.parse "1"] ∧
      ⟨2, 0⟩ ∈ makeAll [] [.parse "2"] ∧ ExponentsFit a.exp a.top ∧
      a ≠ ⟨1, 0⟩ ∧ (⟨2, 0⟩ : Decimal).value < a.value ∧
      (a.sub .standard ⟨1, 0⟩).isZero = true ∧
      (⟨1, 0⟩ : Decimal).div? .standard (a.sub .standard ⟨1, 0⟩) = none ∧
      (a.sub .standard ⟨2, 0⟩).isNegative = true := by
  exact ⟨⟨1, 2 ^ 32⟩, by decide +kernel, by decide +kernel, by decide +kernel, by decide +kernel,
    by decide, value_digit_lt (by decide) (by decide), by decide +kernel, by decide +kernel,
    by decide +kernel⟩

end ExactCalculator
