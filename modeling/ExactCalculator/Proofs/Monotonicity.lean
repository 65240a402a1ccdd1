import ExactCalculator.Proofs.Comparison
import ExactCalculator.Proofs.Division

/-!
# Arithmetic keeps the order of numbers

A greater number has no smaller rounding (`RoundsTo.mono`), whatever the places at which the two
are rounded and on which side of zero they lie. An operation rounds its exact result, so it is
monotone wherever the exact one is, as long as everything that it computes on the way fits into
machine words. Main statement: `arithmetic_monotone`. Where an exponent does not fit into 64 bits
there is nothing to compare (`product_beyond_exponents_stops`).
-/

namespace ExactCalculator

/-- Numbers that are both rounded keep their order. -/
theorem exists_value_le {p : Precision} {x y : ℚ} {P Q : Decimal → Prop}
    (hx : ∃ r, P r ∧ CorrectlyRounded p x r) (hy : ∃ s, Q s ∧ CorrectlyRounded p y s)
    (hle : x ≤ y) : ∃ r s, P r ∧ Q s ∧ r.value ≤ s.value := by
  obtain ⟨r, hr, hxr⟩ := hx
  obtain ⟨s, hs, hys⟩ := hy
  exact ⟨r, s, hr, hs, hxr.value_le hys hle⟩

namespace Decimal

/-- Rounding, sums, differences, products with a number that is not negative and quotients by a
positive number are monotone, for coefficients of any length, as long as all exponents on the way
fit into 64 bits and the digits that are appended, or dropped at once, can be counted in 32 bits. -/
theorem arithmetic_monotone (p : Precision) {a b : Decimal} (h : a.value ≤ b.value) (c : Decimal) :
    (RoundingFits p a.coeff a.exp false → RoundingFits p b.coeff b.exp false →
      ∃ r s, a.roundedChecked p = some r ∧ b.roundedChecked p = some s ∧ r.value ≤ s.value) ∧
    (BinaryOperator.add.Fits p a c → BinaryOperator.add.Fits p b c →
      ∃ r s, a.addChecked p c = some r ∧ b.addChecked p c = some s ∧ r.value ≤ s.value) ∧
    (BinaryOperator.sub.Fits p a c → BinaryOperator.sub.Fits p b c →
      ∃ r s, a.subChecked p c = some r ∧ b.subChecked p c = some s ∧ r.value ≤ s.value) ∧
    (BinaryOperator.sub.Fits p c a → BinaryOperator.sub.Fits p c b →
      ∃ r s, c.subChecked p b = some r ∧ c.subChecked p a = some s ∧ r.value ≤ s.value) ∧
    (0 ≤ c.value → BinaryOperator.mul.Fits p a c → BinaryOperator.mul.Fits p b c →
      ∃ r s, a.mulChecked p c = some r ∧ b.mulChecked p c = some s ∧ r.value ≤ s.value) ∧
    (0 < c.value → BinaryOperator.div.Fits p a c → BinaryOperator.div.Fits p b c →
      ∃ q r, a.divChecked p c = some (some q) ∧ b.divChecked p c = some (some r) ∧
        q.value ≤ r.value) := by
  refine ⟨?_, ?_, ?_, ?_, ?_, ?_⟩
  · intro ha hb
    exact exists_value_le (roundedChecked_correct ha) (roundedChecked_correct hb) h
  · intro ha hb
    exact exists_value_le (addChecked_correct ha) (addChecked_correct hb)
      (add_le_add_left h c.value)
  · intro ha hb
    exact exists_value_le (subChecked_correct ha) (subChecked_correct hb)
      (sub_le_sub_right h c.value)
  · intro ha hb
    exact exists_value_le (subChecked_correct hb) (subChecked_correct ha)
      (sub_le_sub_left h c.value)
  · intro hc ha hb
    exact exists_value_le (mulChecked_correct ha) (mulChecked_correct hb)
      (mul_le_mul_of_nonneg_right h hc)
  · intro hc ha hb
    exact exists_value_le (divChecked_correct hc.ne' ha) (divChecked_correct hc.ne' hb)
      (div_le_div_of_nonneg_right h hc.le)

/-- At one digit `9.49` goes down to nine and `9.5` is carried to ten. -/
theorem carry_keeps_order :
    ∃ (p : Precision) (a b c : Decimal), a.value ≤ b.value ∧ 0 < c.value ∧
      a.roundedChecked p = some ⟨9, 0⟩ ∧ b.roundedChecked p = some ⟨1, 1⟩ ∧
      (⟨9, 0⟩ : Decimal).value ≤ (⟨1, 1⟩ : Decimal).value ∧
      (∃ r s, a.addChecked p c = some r ∧ b.addChecked p c = some s ∧ r.value ≤ s.value) ∧
      (∃ r s, a.subChecked p c = some r ∧ b.subChecked p c = some s ∧ r.value ≤ s.value) ∧
      (∃ r s, c.subChecked p b = some r ∧ c.subChecked p a = some s ∧ r.value ≤ s.value) ∧
      (∃ r s, a.mulChecked p c = some r ∧ b.mulChecked p c = some s ∧ r.value ≤ s.value) ∧
      ∃ q r, a.divChecked p c = some (some q) ∧ b.divChecked p c = some (some r) ∧
        q.value ≤ r.value := by
  have hle : (⟨949, -2⟩ : Decimal).value ≤ (⟨95, -1⟩ : Decimal).value := by norm_num [value]
  have hpos : 0 < (⟨3, 0⟩ : Decimal).value := by norm_num [value]
  have ha : (⟨949, -2⟩ : Decimal).roundedChecked (.clamp 1) = some ⟨9, 0⟩ := by decide +kernel
  have hb : (⟨95, -1⟩ : Decimal).roundedChecked (.clamp 1) = some ⟨1, 1⟩ := by decide +kernel
  obtain ⟨hrounded, hadd, hsub, hsub', hmul, hdiv⟩ := arithmetic_monotone (.clamp 1) hle ⟨3, 0⟩
  obtain ⟨r, s, hr, hs, hrs⟩ := hrounded (by decide +kernel) (by decide +kernel)
  obtain rfl := Option.some.inj (ha.symm.trans hr)
  obtain rfl := Option.some.inj (hb.symm.trans hs)
  exact ⟨.clamp 1, ⟨949, -2⟩, ⟨95, -1⟩, ⟨3, 0⟩, hle, hpos, ha, hb, hrs,
    hadd (by decide +kernel) (by decide +kernel), hsub (by decide +kernel) (by decide +kernel),
    hsub' (by decide +kernel) (by decide +kernel),
    hmul hpos.le (by decide +kernel) (by decide +kernel),
    hdiv hpos (by decide +kernel) (by decide +kernel)⟩

end Decimal

open Decimal

/-- Ten, squared 62 times, has an exponent of 64 bits, and so has its product with one. Its square
has not: there the program stops. -/
theorem product_beyond_exponents_stops :
    ∃ a b, a ∈ makeAll [] [.parse "1"] ∧ b ∈ makeAll [] (squarings 62) ∧
      a.value ≤ b.value ∧ 0 ≤ b.value ∧ a.mulChecked .standard b = some b ∧
      b.mulChecked .standard b = none ∧
      ¬ ∃ r s, a.mulChecked .standard b = some r ∧ b.mulChecked .standard b = some s ∧
        r.value ≤ s.value := by
  have hpower : ∀ e : ℤ, (⟨1, e⟩ : Decimal).value = 10 ^ e := by
    intro e
    rw [value, Int.cast_one, one_mul]
  have hstops : (⟨1, 2 ^ 62⟩ : Decimal).mulChecked .standard ⟨1, 2 ^ 62⟩ = none := by
    decide +kernel
  refine ⟨⟨1, 0⟩, ⟨1, 2 ^ 62⟩, by decide +kernel, by decide +kernel, ?_, ?_, by decide +kernel,
    hstops, ?_⟩
  · rw [hpower, hpower]
    exact ten_zpow_le.2 (by decide)
  · rw [hpower]
    exact (ten_zpow_pos _).le
  · rintro ⟨r, s, -, hs, -⟩
    rw [hstops] at hs
    cases hs

end ExactCalculator
