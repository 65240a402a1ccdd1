import ExactCalculator.Proofs.Exponents.Fits

/-!
# Rounding does not depend on the estimate

Before the digits that are too many are dropped one by one, any number of them may be dropped at
once: the result is the same (`roundDigits_eq`), so the estimate of the number of digits has no
influence on it as long as it is not too great. It is the rounding of every number that the
coefficient stands for (`StandsFor`), exactly or with more behind its last digit. The program comes
to it as long as the digits that it drops at once can be counted, and stops if its exponent does not
fit into 64 bits. Main statement: `rounding_in_stages`.

So there is not always a rounding (`rounding_beyond_exponents`).
-/

namespace ExactCalculator.Decimal

/-- Rounding `coeff · 10 ^ exp` to any number of digits, the first `k` of them dropped at once. -/
def roundDigits (digits k : ℕ) (coeff exp : ℤ) (inexact : Bool) : Decimal :=
  ofCut coeff exp (Cut.shorten digits ((Cut.whole coeff inexact).drop k))

/-- The numbers that a coefficient stands for: its own, or, if it is inexact, those strictly between
its own and the next one away from zero. -/
inductive StandsFor (coeff exp : ℤ) : Bool → ℚ → Prop
  | exact : StandsFor coeff exp false (coeff * 10 ^ exp)
  | beyond {v : ℚ} : 0 < coeff * v → |(coeff : ℚ)| * 10 ^ exp < |v| →
      |v| < (|(coeff : ℚ)| + 1) * 10 ^ exp → StandsFor coeff exp true v

variable {digits k : ℕ} {coeff exp : ℤ} {inexact : Bool} {v : ℚ}

theorem roundDigits_eq (hd : 1 ≤ digits) (hk : k ≤ digitCount coeff.natAbs - digits) :
    roundDigits digits k coeff exp inexact = roundDigits digits 0 coeff exp inexact := by
  rw [roundDigits, Cut.shorten_drop (c := Cut.whole coeff inexact) hd hk, roundDigits, Cut.drop]

/-- Rounding to a precision drops as many digits at once as the estimate has beyond it. -/
theorem round_eq_roundDigits {p : Precision} (h : IsCount (blockSize p coeff)) :
    round p coeff exp inexact = roundDigits p.digits 0 coeff exp inexact :=
  round_eq_of_isCount h exp inexact

/-! ## The numbers meant -/

theorem StandsFor.exists_marks (h : StandsFor coeff exp inexact v) :
    ∃ x, (Tail.ofInexact inexact).Marks x ∧
      v = coeff.sign * ((coeff.natAbs + x) * 10 ^ exp) := by
  cases h with
  | exact =>
    refine ⟨0, Tail.marks_ofInexact le_rfl (by norm_num) (by simp), ?_⟩
    rw [add_zero, ← mul_assoc, sign_mul_natAbs_cast]
  | beyond hsign hlow hhigh =>
    have hpos := ten_zpow_pos exp
    have habs : (|(coeff : ℚ)|) = coeff.natAbs := by
      rw [← Int.cast_abs, Int.abs_eq_natAbs, Int.cast_natCast]
    rw [habs] at hlow hhigh
    have hlow' : (coeff.natAbs : ℚ) < |v| / 10 ^ exp := (lt_div_iff₀ hpos).2 hlow
    have hhigh' : |v| / 10 ^ exp < coeff.natAbs + 1 := (div_lt_iff₀ hpos).2 hhigh
    refine ⟨|v| / 10 ^ exp - coeff.natAbs, ?_, ?_⟩
    · exact Tail.marks_ofInexact (by linarith) (by linarith)
        ⟨fun _ => (sub_pos.2 hlow').ne', fun _ => rfl⟩
    · rw [add_sub_cancel, div_mul_cancel₀ _ hpos.ne']
      rcases pos_and_pos_or_neg_and_neg_of_mul_pos hsign with ⟨hc, hv⟩ | ⟨hc, hv⟩
      · rw [Int.sign_eq_one_of_pos (Int.cast_pos.1 hc), abs_of_pos hv, Int.cast_one, one_mul]
      · rw [Int.sign_eq_neg_one_of_neg (Int.cast_lt_zero.1 hc), abs_of_neg hv]
        norm_num

/-- The rounding of all numbers that the coefficient stands for. -/
theorem StandsFor.roundsTo (h : StandsFor coeff exp inexact v) (hd : 1 ≤ digits)
    (hlong : digits < digitCount coeff.natAbs) :
    RoundsTo digits v (roundDigits digits 0 coeff exp inexact).value := by
  obtain ⟨x, hx, rfl⟩ := h.exists_marks
  obtain ⟨hdenotes, hkept⟩ :=
    (Cut.marks_whole hx).shorten hd ((lt_digitCount_iff hd).1 hlong)
  exact roundsTo_of_denotes hd hdenotes hkept (Cut.kept_shorten_lt _ _) coeff exp

/-- Dropping any number `k` of the digits that are too many at once and the others one by one gives
the same decimal as dropping all of them one by one. So does every estimate that is not above the
number of digits, and with it rounding to a precision, as long as the digits dropped at once can be
counted in 32 bits. If there are digits to drop, this decimal is the rounding, half to even, of
every number that the coefficient stands for. The program returns it exactly if its exponent,
besides the given one, fits into 64 bits. -/
theorem rounding_in_stages (hd : 1 ≤ digits) (coeff exp : ℤ) (inexact : Bool) :
    (∀ k ≤ digitCount coeff.natAbs - digits,
      roundDigits digits k coeff exp inexact = roundDigits digits 0 coeff exp inexact) ∧
    (∀ estimate ≤ digitCount coeff.natAbs,
      roundDigits digits (estimate - digits) coeff exp inexact =
        roundDigits digits 0 coeff exp inexact) ∧
    (roundDigits digits 0 coeff exp inexact).IsNormal ∧
    (digits < digitCount coeff.natAbs → ∀ v, StandsFor coeff exp inexact v →
      RoundsTo digits v (roundDigits digits 0 coeff exp inexact).value) ∧
    ∀ p : Precision, p.digits = digits → IsCount (blockSize p coeff) →
      ∀ r, roundChecked p coeff exp inexact = some r ↔
        IsExponent exp ∧ r = roundDigits digits 0 coeff exp inexact ∧ IsExponent r.exp := by
  refine ⟨fun k hk => roundDigits_eq hd hk, ?_, isNormal_normalize _ _,
    fun hlong v hv => hv.roundsTo hd hlong, ?_⟩
  · intro estimate hle
    exact roundDigits_eq hd (Nat.sub_le_sub_right hle digits)
  · rintro p rfl hcount r
    rw [roundChecked_eq_some_iff, round_eq_roundDigits hcount]

/-- At two digits `1250` is a tie, and anything behind it is more than one, also when the zero is
dropped first. -/
theorem tie_dropped_in_stages :
    2 < digitCount 1250 ∧ StandsFor 1250 0 true (1250 + 1 / 1000) ∧
      roundChecked (.clamp 2) 1250 0 true = some ⟨13, 2⟩ ∧
      roundDigits 2 1 1250 0 true = ⟨13, 2⟩ ∧
      RoundsTo 2 (1250 + 1 / 1000) (roundDigits 2 1 1250 0 true).value := by
  have hlong : 2 < digitCount 1250 := by decide +kernel
  have hbeyond : StandsFor 1250 0 true (1250 + 1 / 1000) := by
    refine .beyond ?_ ?_ ?_ <;> norm_num
  obtain ⟨hstages, -, -, hrounds, hchecked⟩ :=
    rounding_in_stages (show 1 ≤ 2 by decide) 1250 0 true
  have hone := hstages 1 (by decide +kernel)
  have hresult : roundDigits 2 0 1250 0 true = ⟨13, 2⟩ := by decide +kernel
  have hround : roundChecked (.clamp 2) 1250 0 true = some ⟨13, 2⟩ :=
    (hchecked (.clamp 2) rfl (by decide +kernel) ⟨13, 2⟩).2 ⟨by decide, hresult.symm, by decide⟩
  refine ⟨hlong, hbeyond, hround, hone.trans hresult, ?_⟩
  rw [hone]
  exact hrounds hlong _ hbeyond

/-- At one digit `123 · 10 ^ e` is rounded to `10 ^ (e + 2)`. With the greatest exponent of 64 bits
this exponent does not fit, and the program stops. -/
theorem rounding_beyond_exponents :
    1 < digitCount 123 ∧ IsExponent 9223372036854775807 ∧
      StandsFor 123 9223372036854775807 false (123 * 10 ^ (9223372036854775807 : ℤ)) ∧
      ¬ ∃ r, roundChecked (.clamp 1) 123 9223372036854775807 false = some r ∧
        RoundsTo 1 (123 * 10 ^ (9223372036854775807 : ℤ)) r.value := by
  refine ⟨by decide +kernel, by decide, .exact, ?_⟩
  rintro ⟨r, hr, -⟩
  have hstops : roundChecked (.clamp 1) 123 9223372036854775807 false = none := by decide +kernel
  rw [hstops] at hr
  cases hr

end ExactCalculator.Decimal
