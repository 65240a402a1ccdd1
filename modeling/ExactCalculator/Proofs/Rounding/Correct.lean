import ExactCalculator.Proofs.Rounding.Cut
import ExactCalculator.Proofs.Rounding.Nearest
import ExactCalculator.Proofs.Value

/-!
# Correct rounding

`CorrectlyRounded p x d`: the decimal `d` is the number `x` at the working precision `p`. It is
proved of digits dropped one by one first (`Decimal.shorten_correct`,
`Decimal.shorten_inexact_correct`). Rounding gives the same number raised by the places of the
digits that it counts but does not drop (`Decimal.round_eq`, `Decimal.round_raised`), so it is
correct as long as the digits that it drops at once can be counted (`Decimal.round_correct`,
`Decimal.round_inexact_correct`).
-/

namespace ExactCalculator

/-- The decimal `d` is `x` rounded to the precision, in normal form. -/
structure CorrectlyRounded (p : Precision) (x : ℚ) (d : Decimal) : Prop where
  rounds : RoundsTo p.digits x d.value
  closest : ∀ z, HasDigits p.digits z → |x - d.value| ≤ |x - z|
  exact : HasDigits p.digits x → d.value = x
  digits_le : digitCount d.coeff.natAbs ≤ p.digits
  normal : d.IsNormal

theorem CorrectlyRounded.of_roundsTo {p : Precision} {x : ℚ} {d : Decimal}
    (h : RoundsTo p.digits x d.value) (hd : digitCount d.coeff.natAbs ≤ p.digits)
    (hn : d.IsNormal) : CorrectlyRounded p x d :=
  ⟨h, fun _ hz => h.closest p.one_le hz, h.eq_of_hasDigits p.one_le, hd, hn⟩

/-- Zero is exact at every precision. -/
theorem correctlyRounded_zero (p : Precision) : CorrectlyRounded p 0 .zero := by
  refine .of_roundsTo (Or.inl ⟨rfl, Decimal.value_zero⟩) ?_ (Or.inl ⟨rfl, rfl⟩)
  exact (digitCount_le_iff p.one_le).2 (by positivity)

/-- A number has one rounding. -/
theorem CorrectlyRounded.unique {p : Precision} {x : ℚ} {d d' : Decimal}
    (h : CorrectlyRounded p x d) (h' : CorrectlyRounded p x d') : d = d' :=
  Decimal.eq_of_value_eq h.normal h'.normal (h.rounds.unique h'.rounds)

theorem CorrectlyRounded.value_le {p : Precision} {x x' : ℚ} {d d' : Decimal}
    (h : CorrectlyRounded p x d) (h' : CorrectlyRounded p x' d') (hle : x ≤ x') :
    d.value ≤ d'.value :=
  h.rounds.mono p.one_le h'.rounds hle

theorem RoundsTo.sign_mul {p : ℕ} {x y : ℚ} (h : RoundsTo p x y) (c : ℤ) :
    RoundsTo p (c.sign * x) (c.sign * y) := by
  rcases lt_trichotomy c 0 with hc | rfl | hc
  · rw [Int.sign_eq_neg_one_of_neg hc]
    simpa using h.neg
  · exact Or.inl ⟨by simp, by simp⟩
  · rw [Int.sign_eq_one_of_pos hc]
    simpa using h

namespace Decimal

/-- A carry to one more digit ends in a zero, which the normal form drops. -/
theorem digitCount_normalize_le {p : Precision} {c : ℤ} (h : c.natAbs ≤ 10 ^ p.digits) (e : ℤ) :
    digitCount (normalize c e).coeff.natAbs ≤ p.digits := by
  rw [digitCount_le_iff p.one_le, natAbs_coeff_normalize]
  rcases lt_or_eq_of_le h with hlt | heq
  · exact (stripZeros_le _).trans_lt hlt
  · have hpos : 0 < 10 ^ p.digits := by positivity
    obtain ⟨j, hj⟩ : ∃ j, p.digits = j + 1 := ⟨p.digits - 1, by have := p.one_le; omega⟩
    have hmod : 10 ^ p.digits % 10 = 0 := by
      rw [hj, pow_succ]
      omega
    rw [heq]
    have := stripZeros_lt hpos.ne' hmod
    omega

theorem natAbs_sign_mul_le (c : ℤ) (n : ℕ) : (c.sign * n).natAbs ≤ n := by
  have hsign : c.sign.natAbs ≤ 1 := by
    rcases Int.sign_trichotomy c with h | h | h <;> simp [h]
  rw [Int.natAbs_mul, Int.natAbs_natCast]
  exact (Nat.mul_le_mul_right n hsign).trans (Nat.one_mul n).le

/-! ## Dropping digits one by one -/

/-- A coefficient that fits is kept. -/
theorem ofCut_shorten_of_lt {digits : ℕ} {coeff : ℤ} (h : coeff.natAbs < 10 ^ digits) (exp : ℤ) :
    ofCut coeff exp (Cut.shorten digits (Cut.whole coeff false)) = normalize coeff exp := by
  rw [Cut.shorten_of_lt (c := Cut.whole coeff false) h, ofCut, Cut.whole]
  simp only [Cut.nearest, Tail.ofInexact, Bool.false_eq_true, ↓reduceIte, Int.sign_mul_natAbs,
    Nat.cast_zero, add_zero]

/-- What is left of a coefficient that is not zero. -/
theorem sign_mul_nearest {coeff : ℤ} (hc : coeff ≠ 0) {cut : Cut} (hn : cut.nearest ≠ 0) :
    coeff.sign * (cut.nearest : ℤ) ≠ 0 ∧ (coeff.sign * (cut.nearest : ℤ)).natAbs = cut.nearest := by
  have habs : (coeff.sign * (cut.nearest : ℤ)).natAbs = cut.nearest := by
    rw [Int.natAbs_mul, Int.natAbs_natCast, Int.natAbs_sign_of_ne_zero hc, one_mul]
  refine ⟨?_, habs⟩
  rwa [← Int.natAbs_ne_zero, habs]

/-- The exponent goes up by the digits dropped and by fewer than are left. -/
theorem exp_ofCut {coeff : ℤ} (hc : coeff ≠ 0) {cut : Cut} (hn : cut.nearest ≠ 0) (exp : ℤ) :
    exp + cut.dropped ≤ (ofCut coeff exp cut).exp ∧
      (ofCut coeff exp cut).exp < exp + cut.dropped + digitCount cut.nearest := by
  obtain ⟨hne, habs⟩ := sign_mul_nearest hc hn
  have hexp := exp_normalize (e := exp + cut.dropped) hne
  rwa [habs] at hexp

/-- More digits that are counted as dropped raise what is left. -/
theorem ofCut_add {coeff : ℤ} (hc : coeff ≠ 0) {cut : Cut} (hn : cut.nearest ≠ 0) (exp : ℤ)
    (j : ℕ) : ofCut coeff (exp + j) cut =
      ⟨(ofCut coeff exp cut).coeff, (ofCut coeff exp cut).exp + j⟩ := by
  obtain ⟨hne, -⟩ := sign_mul_nearest hc hn
  rw [ofCut, ofCut, normalize, if_neg hne, normalize, if_neg hne]
  simp only [Decimal.mk.injEq, true_and]
  omega

/-- A magnitude that is cut to as many digits as fit is rounded to the nearest coefficient. -/
theorem roundsTo_of_denotes {digits : ℕ} {cut : Cut} {v : ℚ} (hd : 1 ≤ digits) (h : cut.Denotes v)
    (hkept : 10 ^ (digits - 1) ≤ cut.kept) (hlt : cut.kept < 10 ^ digits) (coeff exp : ℤ) :
    RoundsTo digits (coeff.sign * (v * 10 ^ exp)) (ofCut coeff exp cut).value := by
  obtain ⟨t, hv, ht, ht', hnear⟩ := h.nearest
  have hround := roundsTo_of_parts (exp + cut.dropped) hd hkept hlt ht ht' hnear
  rw [ofCut, value_normalize]
  convert hround.sign_mul coeff using 1
  · rw [hv, ten_zpow_add, zpow_natCast]
    ring
  · push_cast
    ring

/-- With `inexact`, the magnitude lies `x` beyond the coefficient, which then has more digits than
fit. -/
theorem shorten_inexact_correct {p : Precision} {coeff : ℤ} {inexact : Bool} {x : ℚ}
    (hx : (Tail.ofInexact inexact).Marks x) (h : 10 ^ p.digits ≤ coeff.natAbs) (exp : ℤ) :
    CorrectlyRounded p (coeff.sign * ((coeff.natAbs + x) * 10 ^ exp))
      (ofCut coeff exp (Cut.shorten p.digits (Cut.whole coeff inexact))) := by
  obtain ⟨hden, hkept⟩ := (Cut.marks_whole hx).shorten p.one_le h
  have hlt := Cut.kept_shorten_lt p.digits (Cut.whole coeff inexact)
  refine .of_roundsTo (roundsTo_of_denotes p.one_le hden hkept hlt coeff exp) ?_
    (isNormal_normalize _ _)
  refine digitCount_normalize_le ?_ _
  have hsign := natAbs_sign_mul_le coeff (Cut.shorten p.digits (Cut.whole coeff inexact)).nearest
  have hnearest := (Cut.shorten p.digits (Cut.whole coeff inexact)).nearest_le
  omega

theorem shorten_correct (p : Precision) (coeff exp : ℤ) :
    CorrectlyRounded p (coeff * 10 ^ exp)
      (ofCut coeff exp (Cut.shorten p.digits (Cut.whole coeff false))) := by
  by_cases h : coeff.natAbs < 10 ^ p.digits
  · rw [ofCut_shorten_of_lt h]
    refine .of_roundsTo ?_ (digitCount_normalize_le h.le exp) (isNormal_normalize coeff exp)
    rw [value_normalize]
    refine roundsTo_self ⟨coeff, exp, ?_, rfl⟩
    rw [Int.abs_eq_natAbs]
    exact_mod_cast h
  · have hx : (Tail.ofInexact false).Marks 0 := Tail.marks_ofInexact le_rfl (by norm_num) (by simp)
    have hcorrect := shorten_inexact_correct hx (not_lt.1 h) exp
    rwa [add_zero, ← mul_assoc, sign_mul_natAbs_cast] at hcorrect

/-! ## The rounding procedure -/

/-- Digits that are counted but stay raise the exponent. -/
theorem round_eq (p : Precision) (coeff exp : ℤ) (inexact : Bool) :
    round p coeff exp inexact = ofCut coeff (exp + overcount (blockSize p coeff))
      (Cut.shorten p.digits (Cut.whole coeff inexact)) := by
  rw [round, roundingCut_eq, ofCut, ofCut, Cut.raised, Nat.cast_add]
  simp only [Cut.nearest, add_comm, add_left_comm]

theorem round_eq_of_isCount {p : Precision} {coeff : ℤ} (h : IsCount (blockSize p coeff)) (exp : ℤ)
    (inexact : Bool) : round p coeff exp inexact =
      ofCut coeff exp (Cut.shorten p.digits (Cut.whole coeff inexact)) := by
  rw [round_eq, overcount_eq_zero h, Nat.cast_zero, add_zero]

/-- Whatever is dropped at once, rounding gives the number raised by the digits that are counted but
stay. -/
theorem round_raised (p : Precision) (coeff exp : ℤ) :
    CorrectlyRounded p (coeff * 10 ^ (exp + overcount (blockSize p coeff)))
      (round p coeff exp false) := by
  rw [round_eq]
  exact shorten_correct p coeff _

theorem round_correct {p : Precision} {coeff : ℤ} (h : IsCount (blockSize p coeff)) (exp : ℤ) :
    CorrectlyRounded p (coeff * 10 ^ exp) (round p coeff exp false) := by
  have hraised := round_raised p coeff exp
  rwa [overcount_eq_zero h, Nat.cast_zero, add_zero] at hraised

/-- The same for a magnitude beyond the coefficient, if that has more digits than fit. -/
theorem round_inexact_correct {p : Precision} {coeff : ℤ} {inexact : Bool} {x : ℚ}
    (hcount : IsCount (blockSize p coeff)) (hx : (Tail.ofInexact inexact).Marks x)
    (h : 10 ^ p.digits ≤ coeff.natAbs) (exp : ℤ) :
    CorrectlyRounded p (coeff.sign * ((coeff.natAbs + x) * 10 ^ exp))
      (round p coeff exp inexact) := by
  rw [round_eq_of_isCount hcount]
  exact shorten_inexact_correct hx h exp

end Decimal

end ExactCalculator
