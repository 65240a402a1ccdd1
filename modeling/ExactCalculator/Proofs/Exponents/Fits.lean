import ExactCalculator.Decimal.Checked
import ExactCalculator.Decimal.Literal
import ExactCalculator.Proofs.Rounding.Correct
import ExactCalculator.Token

/-!
# What fits into machine words

Exponents are computed in 64 bits, and the digits that an operation appends or drops at once are
counted in 32 bits. `RoundingFits`, `AlignmentFits`, `DivisionFits` and `LiteralFits` say that
nothing is lost in this; `BinaryOperator.Fits` collects what an operator needs.

An operation of which everything fits does not stop: its result is that of the same operation with
exponents of any size (`RoundingFits.roundChecked`, `addChecked_of_fits` and the like). Rounding
stops for no other exponents than the first and the last one (`roundChecked_eq_some_iff`).
-/

namespace ExactCalculator

namespace Decimal

/-! ## What an operation computes with -/

/-- Rounding drops a number of digits at once that can be counted. The exponent it is given, the
one after the cut and the one after the zeros are stripped fit, and so do those between them. -/
structure RoundingFits (p : Precision) (coeff exp : ℤ) (inexact : Bool) : Prop where
  block : IsCount (blockSize p coeff)
  dropped : IsExponent (roundingCut p coeff inexact).dropped
  exponent : IsExponent exp
  cut : IsExponent (exp + (roundingCut p coeff inexact).dropped)
  stripped : IsExponent (round p coeff exp inexact).exp

/-- The gap of the exponents, taken either way, fits, and it can be counted: the shift is the whole
gap. -/
structure AlignmentFits (a b : Decimal) : Prop where
  gap : IsExponent (a.exp - b.exp)
  gap_symm : IsExponent (b.exp - a.exp)
  count : IsCount (a.exp - b.exp).natAbs
  shift : alignmentShift a b = (a.exp - b.exp).natAbs

/-- The digits that lengthen the dividend can be counted. The sum and the difference that give their
number fit, as do the difference of the exponents and what rounding the whole quotient computes. -/
structure DivisionFits (p : Precision) (a b : Decimal) : Prop where
  digits : IsExponent (p.digits + 1 + digitsUpper b.coeff.natAbs)
  difference : IsExponent (p.digits + 1 + digitsUpper b.coeff.natAbs - digitsLower a.coeff.natAbs)
  shift : IsCount (quotientShift p a b)
  exponent : IsExponent (a.exp - b.exp)
  rounding : RoundingFits p ((dividend p a b).tdiv b.coeff) (a.exp - b.exp - quotientShift p a b)
    ((dividend p a b).tmod b.coeff != 0)

/-- The digits of a literal can be counted, and the exponent of its number fits. -/
structure LiteralFits (literal : String) : Prop where
  digits : IsExponent literal.length
  exponent : ∀ v, parse literal = .ok v → IsExponent v.exp

instance (p : Precision) (coeff exp : ℤ) (inexact : Bool) :
    Decidable (RoundingFits p coeff exp inexact) :=
  decidable_of_iff (IsCount (blockSize p coeff) ∧ IsExponent (roundingCut p coeff inexact).dropped ∧
      IsExponent exp ∧ IsExponent (exp + (roundingCut p coeff inexact).dropped) ∧
      IsExponent (round p coeff exp inexact).exp)
    ⟨fun ⟨h1, h2, h3, h4, h5⟩ => ⟨h1, h2, h3, h4, h5⟩,
      fun ⟨h1, h2, h3, h4, h5⟩ => ⟨h1, h2, h3, h4, h5⟩⟩

instance (a b : Decimal) : Decidable (AlignmentFits a b) :=
  decidable_of_iff (IsExponent (a.exp - b.exp) ∧ IsExponent (b.exp - a.exp) ∧
      IsCount (a.exp - b.exp).natAbs ∧ alignmentShift a b = (a.exp - b.exp).natAbs)
    ⟨fun ⟨h1, h2, h3, h4⟩ => ⟨h1, h2, h3, h4⟩, fun ⟨h1, h2, h3, h4⟩ => ⟨h1, h2, h3, h4⟩⟩

instance (p : Precision) (a b : Decimal) : Decidable (DivisionFits p a b) :=
  decidable_of_iff (IsExponent (p.digits + 1 + digitsUpper b.coeff.natAbs) ∧
      IsExponent (p.digits + 1 + digitsUpper b.coeff.natAbs - digitsLower a.coeff.natAbs) ∧
      IsCount (quotientShift p a b) ∧ IsExponent (a.exp - b.exp) ∧
      RoundingFits p ((dividend p a b).tdiv b.coeff) (a.exp - b.exp - quotientShift p a b)
        ((dividend p a b).tmod b.coeff != 0))
    ⟨fun ⟨h1, h2, h3, h4, h5⟩ => ⟨h1, h2, h3, h4, h5⟩,
      fun ⟨h1, h2, h3, h4, h5⟩ => ⟨h1, h2, h3, h4, h5⟩⟩

end Decimal

open Decimal

/-- Whatever the operator computes on the way to its result fits. There is nothing to compute for a
quotient of which an operand is zero. -/
def BinaryOperator.Fits (p : Precision) (a b : Decimal) : BinaryOperator → Prop
  | add => AlignmentFits a b ∧
      RoundingFits p ((align a b).1 + (align a b).2.1) (align a b).2.2 false
  | sub => AlignmentFits a b ∧
      RoundingFits p ((align a b).1 - (align a b).2.1) (align a b).2.2 false
  | mul => RoundingFits p (a.coeff * b.coeff) (a.exp + b.exp) false
  | div => a.coeff ≠ 0 → b.coeff ≠ 0 → DivisionFits p a b

instance (p : Precision) (a b : Decimal) : (op : BinaryOperator) → Decidable (op.Fits p a b)
  | .add => inferInstanceAs (Decidable (AlignmentFits a b ∧ _))
  | .sub => inferInstanceAs (Decidable (AlignmentFits a b ∧ _))
  | .mul => inferInstanceAs (Decidable (RoundingFits _ _ _ _))
  | .div => inferInstanceAs (Decidable (a.coeff ≠ 0 → b.coeff ≠ 0 → DivisionFits p a b))

namespace Decimal

/-! ## Operations that do not stop -/

section

variable {p : Precision} {coeff exp : ℤ} {inexact : Bool} {a b : Decimal}

theorem checked_eq_some_iff {α : Type} {exponents : List ℤ} {x y : α} :
    checked exponents x = some y ↔ (∀ e ∈ exponents, IsExponent e) ∧ x = y := by
  rw [checked]
  split <;> simp_all

theorem forall_roundingExponents_iff {P : ℤ → Prop} :
    (∀ e ∈ roundingExponents p coeff exp inexact, P e) ↔
      P exp ∧ P (exp + (roundingCut p coeff inexact).dropped) ∧
        P (round p coeff exp inexact).exp := by
  simp [roundingExponents, round]

theorem RoundingFits.isExponent (h : RoundingFits p coeff exp inexact) :
    ∀ e ∈ roundingExponents p coeff exp inexact, IsExponent e :=
  forall_roundingExponents_iff.2 ⟨h.exponent, h.cut, h.stripped⟩

/-- The exponent after the cut lies between the given one and that of the result. -/
theorem isExponent_cut (hexp : IsExponent exp)
    (hresult : IsExponent (round p coeff exp inexact).exp) :
    IsExponent (exp + (roundingCut p coeff inexact).dropped) := by
  by_cases hc : coeff = 0
  · have hshort : coeff.natAbs < 10 ^ p.digits := by
      rw [hc]
      positivity
    rw [roundingCut_eq, Cut.shorten_of_lt (c := Cut.whole coeff inexact) hshort,
      blockSize_of_lt hshort]
    exact (add_zero exp).symm ▸ hexp
  · have hnearest := Cut.nearest_shorten_pos p.one_le (c := Cut.whole coeff inexact)
      (Int.natAbs_pos.2 hc)
    have hle : exp + (roundingCut p coeff inexact).dropped ≤ (round p coeff exp inexact).exp :=
      (exp_ofCut hc (by rw [roundingCut_eq]; exact hnearest.ne') exp).1
    exact ⟨hexp.1.trans (by omega), hle.trans hresult.2⟩

/-- Rounding stops when the given exponent does not fit or that of the result does not. -/
theorem roundChecked_eq_some_iff {r : Decimal} : roundChecked p coeff exp inexact = some r ↔
    IsExponent exp ∧ r = round p coeff exp inexact ∧ IsExponent r.exp := by
  rw [roundChecked, checked_eq_some_iff, forall_roundingExponents_iff]
  constructor
  · rintro ⟨⟨hexp, -, hresult⟩, rfl⟩
    exact ⟨hexp, rfl, hresult⟩
  · rintro ⟨hexp, rfl, hresult⟩
    exact ⟨⟨hexp, isExponent_cut hexp hresult, hresult⟩, rfl⟩

theorem addChecked_eq_some_iff {r : Decimal} : a.addChecked p b = some r ↔
    IsExponent (a.exp - b.exp).natAbs ∧ IsExponent (align a b).2.2 ∧ r = a.add p b ∧
      IsExponent r.exp := by
  rw [addChecked, checked_eq_some_iff, alignedExponents, List.forall_mem_cons, and_assoc]
  exact and_congr_right fun _ => checked_eq_some_iff.symm.trans roundChecked_eq_some_iff

theorem AlignmentFits.isExponent (h : AlignmentFits a b)
    (hround : RoundingFits p coeff (align a b).2.2 false) :
    ∀ e ∈ alignedExponents p a b coeff, IsExponent e := by
  intro e he
  rcases List.mem_cons.1 he with rfl | he
  · have hcount := h.count
    rw [IsCount, UInt32.size] at hcount
    constructor <;> omega
  · exact hround.isExponent e he

theorem RoundingFits.roundChecked (h : RoundingFits p coeff exp inexact) :
    roundChecked p coeff exp inexact = some (round p coeff exp inexact) :=
  checked_eq_some_iff.2 ⟨h.isExponent, rfl⟩

theorem addChecked_of_fits (h : BinaryOperator.add.Fits p a b) :
    a.addChecked p b = some (a.add p b) :=
  checked_eq_some_iff.2 ⟨h.1.isExponent h.2, rfl⟩

theorem subChecked_of_fits (h : BinaryOperator.sub.Fits p a b) :
    a.subChecked p b = some (a.sub p b) :=
  checked_eq_some_iff.2 ⟨h.1.isExponent h.2, rfl⟩

theorem mulChecked_of_fits (h : BinaryOperator.mul.Fits p a b) :
    a.mulChecked p b = some (a.mul p b) := RoundingFits.roundChecked h

theorem divChecked_of_fits (h : BinaryOperator.div.Fits p a b) :
    a.divChecked p b = some (a.div? p b) := by
  refine checked_eq_some_iff.2 ⟨?_, rfl⟩
  rw [quotientExponents]
  split
  · simp
  · next hzero =>
    rw [Bool.or_eq_true, not_or, isZero, isZero, beq_iff_eq, beq_iff_eq] at hzero
    have hfits := h hzero.2 hzero.1
    intro e he
    rcases List.mem_cons.1 he with rfl | he
    · exact hfits.exponent
    · exact hfits.rounding.isExponent e he

end

end Decimal

end ExactCalculator
