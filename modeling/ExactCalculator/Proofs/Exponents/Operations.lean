import ExactCalculator.Proofs.DigitString
import ExactCalculator.Proofs.Division
import ExactCalculator.Proofs.NormalForm

/-!
# Exponents and digit counts of one operation

`Decimal.Spans d w` bounds the places of all digits of a decimal, so exponent and length at once. A
literal spans its length (`spans_of_parse`), rounding needs one place more (`round_spans`), and a
result of an operator spans little more than its operands together, however they are divided or
cancel (`BinaryOperator.apply_spans`).
-/

namespace ExactCalculator

namespace Decimal

/-! ## The places of the digits -/

/-- All digits of the decimal stand between the places `-w` and `w`. -/
structure Spans (d : Decimal) (w : ℕ) : Prop where
  neg_le_exp : -(w : ℤ) ≤ d.exp
  top_le : d.top ≤ w

/-- Twice as many digits can be counted in 32 bits, and exponents of several times as many places
fit into 64. -/
def maxSpan : ℕ := 2000000000

theorem isExponent_of_mem {e : ℤ} (hlow : -(4 * maxSpan : ℤ) ≤ e) (hhigh : e ≤ 4 * maxSpan) :
    IsExponent e := by
  rw [maxSpan] at hlow hhigh
  constructor <;> omega

theorem isCount_of_le {k : ℕ} (h : k ≤ 2 * maxSpan) : IsCount k := by
  rw [maxSpan] at h
  rw [IsCount, UInt32.size]
  omega

theorem exp_lt_top (d : Decimal) : d.exp < d.top := by
  have hpos := digitCount_pos d.coeff.natAbs
  rw [top]
  omega

theorem Spans.mono {d : Decimal} {v w : ℕ} (h : d.Spans v) (hvw : v ≤ w) : d.Spans w := by
  obtain ⟨hlow, htop⟩ := h
  constructor <;> omega

theorem Spans.abs_exp_le {d : Decimal} {w : ℕ} (h : d.Spans w) : |d.exp| ≤ w := by
  have hlt := d.exp_lt_top
  obtain ⟨hlow, htop⟩ := h
  rw [abs_le]
  constructor <;> omega

theorem zero_spans {w : ℕ} (hw : 1 ≤ w) : zero.Spans w := by
  have htop : zero.top = 1 := rfl
  have hexp : zero.exp = 0 := rfl
  constructor <;> omega

/-- Stripping zeros moves them from the coefficient to the exponent. -/
theorem top_normalize {c : ℤ} (hc : c ≠ 0) (e : ℤ) :
    (normalize c e).top = e + digitCount c.natAbs := by
  have hstrip := stripZeros_mul c.natAbs
  have hne : (stripZeros c.natAbs).1 ≠ 0 := by
    intro h0
    rw [h0, Nat.zero_mul] at hstrip
    exact Int.natAbs_ne_zero.2 hc hstrip.symm
  have hcount := digitCount_mul_tenPow hne (stripZeros c.natAbs).2
  rw [hstrip] at hcount
  have hexp : (normalize c e).exp = e + (stripZeros c.natAbs).2 := by
    rw [normalize, if_neg hc]
  rw [top, hexp, natAbs_coeff_normalize, hcount]
  push_cast
  ring

theorem normalize_spans {c e : ℤ} {w : ℕ} (hw : 1 ≤ w) (hlow : -(w : ℤ) ≤ e)
    (htop : e + digitCount c.natAbs ≤ w) : (normalize c e).Spans w := by
  by_cases hc : c = 0
  · rw [normalize, if_pos hc]
    exact zero_spans hw
  · exact ⟨hlow.trans (exp_normalize hc).1, (top_normalize hc e).le.trans htop⟩

/-! ## Literals -/

theorem splitLiteral_length_le {cs whole fraction : List Char}
    (h : splitLiteral cs = some (whole, fraction)) :
    whole.length + fraction.length ≤ cs.length ∧ 1 ≤ cs.length := by
  obtain ⟨rfl, rfl, -, hne⟩ := splitLiteral_eq_some_iff.1 h
  have hsum := congrArg List.length (List.takeWhile_append_dropWhile (p := (· != '.')) (l := cs))
  have hpos := List.length_pos_iff.2 hne
  rw [List.length_append] at hsum hpos
  rw [List.length_drop] at hpos ⊢
  omega

/-- A literal has no digit beyond its own length on either side of the point. -/
theorem spans_of_parse {literal : String} {v : Decimal} (h : parse literal = .ok v) :
    v.Spans literal.length ∧ 1 ≤ literal.length := by
  obtain ⟨⟨whole, fraction⟩, hsplit, rfl⟩ := Option.map_eq_some_iff.1 (parse_eq_ok_iff.1 h)
  obtain ⟨hlength, hone⟩ := splitLiteral_length_le hsplit
  rw [String.length_toList] at hlength hone
  refine ⟨normalize_spans hone (by omega) ?_, hone⟩
  rw [Int.natAbs_natCast]
  generalize hn : Nat.ofDigitChars 10 (whole ++ fraction) 0 = n
  have hlt := ofDigitChars_lt (splitLiteral_eq_some_iff.1 hsplit).2.2.1
  rw [hn, List.length_append] at hlt
  by_cases hzero : whole.length + fraction.length = 0
  · rw [hzero, pow_zero, Nat.lt_one_iff] at hlt
    have hcount : digitCount n = 1 := by rw [hlt]; rfl
    omega
  · have hcount := (digitCount_le_iff (Nat.pos_of_ne_zero hzero)).2 hlt
    omega

theorem literalFits {literal : String} (h : literal.length ≤ maxSpan) : LiteralFits literal := by
  refine ⟨isExponent_of_mem (by omega) (by omega), fun v hv => ?_⟩
  have hexp := abs_le.1 (spans_of_parse hv).1.abs_exp_le
  exact isExponent_of_mem (by omega) (by omega)

/-! ## Rounding -/

/-- The digits of a rounded coefficient stand where those of the coefficient stand, or one place
above. -/
theorem round_spans (p : Precision) (inexact : Bool) {coeff exp : ℤ} {w : ℕ}
    (hw : 1 ≤ w) (hlow : -(w : ℤ) ≤ exp) (htop : exp + digitCount coeff.natAbs + 1 ≤ w)
    (hmax : w ≤ maxSpan) :
    RoundingFits p coeff exp inexact ∧ (round p coeff exp inexact).Spans w := by
  have hest := digitsLower_le_digitCount coeff.natAbs
  have hblock : IsCount (blockSize p coeff) := isCount_of_le (by rw [blockSize]; omega)
  have hcount := Cut.dropped_add_digitCount_le p.one_le coeff inexact
  rw [← roundingCut_of_isCount hblock] at hcount
  have hpos := digitCount_pos (roundingCut p coeff inexact).nearest
  have hsign := digitCount_mono (natAbs_sign_mul_le coeff (roundingCut p coeff inexact).nearest)
  have hspans : (round p coeff exp inexact).Spans w := normalize_spans hw (by omega) (by omega)
  have hexp := abs_le.1 hspans.abs_exp_le
  refine ⟨⟨hblock, isExponent_of_mem ?_ ?_, isExponent_of_mem ?_ ?_, isExponent_of_mem ?_ ?_,
    isExponent_of_mem ?_ ?_⟩, hspans⟩ <;> omega

theorem Spans.neg_rounded {p : Precision} {v : Decimal} {u w : ℕ} (h : v.Spans u)
    (huw : u + 1 ≤ w) (hmax : w ≤ maxSpan) :
    RoundingFits p v.neg.coeff v.neg.exp false ∧ (v.neg.rounded p).Spans w := by
  obtain ⟨hlow, htop⟩ := h
  rw [top] at htop
  refine round_spans p false (by omega) ?_ ?_ hmax
  · simp only [neg]
    omega
  · simp only [neg, Int.natAbs_neg]
    omega

/-! ## The operators -/

section Operators

variable {p : Precision} {a b : Decimal} {u v w : ℕ}

theorem Spans.gap_lt (ha : a.Spans u) (hb : b.Spans v) (h : u + v ≤ maxSpan) :
    |a.exp - b.exp| < 2 ^ 32 := by
  have hae := abs_le.1 ha.abs_exp_le
  have hbe := abs_le.1 hb.abs_exp_le
  rw [maxSpan] at h
  rw [abs_lt]
  constructor <;> omega

theorem Spans.alignmentFits (ha : a.Spans u) (hb : b.Spans v) (h : u + v ≤ maxSpan) :
    AlignmentFits a b := by
  have hae := abs_le.1 ha.abs_exp_le
  have hbe := abs_le.1 hb.abs_exp_le
  refine ⟨isExponent_of_mem ?_ ?_, isExponent_of_mem ?_ ?_, isCount_of_le ?_,
    alignmentShift_of_lt (ha.gap_lt hb h)⟩ <;> omega

/-- A combination of the aligned coefficients whose magnitude is at most their sum. -/
theorem Spans.aligned (p : Precision) (ha : a.Spans u) (hb : b.Spans v) {f : ℤ → ℤ → ℤ}
    (hf : ∀ x y, (f x y).natAbs ≤ x.natAbs + y.natAbs) (hw : u + v + 2 ≤ w) (hmax : w ≤ maxSpan) :
    AlignmentFits a b ∧
      RoundingFits p (f (align a b).1 (align a b).2.1) (align a b).2.2 false ∧
      (round p (f (align a b).1 (align a b).2.1) (align a b).2.2 false).Spans w := by
  have hfits := ha.alignmentFits hb (by omega)
  obtain ⟨x, y, halign, -, -, hx, hy⟩ := align_spec (ha.gap_lt hb (by omega))
  have hcount := (digitCount_mono (hf x y)).trans (digitCount_add_le x.natAbs y.natAbs)
  obtain ⟨halow, hatop⟩ := ha
  obtain ⟨hblow, hbtop⟩ := hb
  have hlow : -(w : ℤ) ≤ min a.exp b.exp := by omega
  have htop : min a.exp b.exp + digitCount (f x y).natAbs + 1 ≤ w := by omega
  rw [halign]
  exact ⟨hfits, round_spans p false (by omega) hlow htop hmax⟩

theorem Spans.product (p : Precision) (ha : a.Spans u) (hb : b.Spans v) (hw : u + v + 1 ≤ w)
    (hmax : w ≤ maxSpan) :
    RoundingFits p (a.coeff * b.coeff) (a.exp + b.exp) false ∧ (a.mul p b).Spans w := by
  have hcount := digitCount_mul_le a.coeff.natAbs b.coeff.natAbs
  obtain ⟨halow, hatop⟩ := ha
  obtain ⟨hblow, hbtop⟩ := hb
  rw [top] at hatop hbtop
  refine round_spans p false (by omega) (by omega) ?_ hmax
  rw [Int.natAbs_mul]
  omega

/-- The quotient is lengthened by little more than the precision and the excess of the divisor. -/
theorem quotientShift_le (p : Precision) (a b : Decimal) :
    quotientShift p a b ≤
      p.digits + 5 + digitCount b.coeff.natAbs - digitCount a.coeff.natAbs := by
  have hupper := digitsUpper_le b.coeff.natAbs
  have hlower := digitCount_le_digitsLower a.coeff.natAbs
  rw [quotientShift]
  omega

theorem Spans.wholeQuotient (p : Precision) (ha : a.Spans u) (hb : b.Spans v)
    (hw : u + v + 206 ≤ w) (hmax : w ≤ maxSpan) :
    DivisionFits p a b ∧
      (round p ((dividend p a b).tdiv b.coeff) (a.exp - b.exp - quotientShift p a b)
        ((dividend p a b).tmod b.coeff != 0)).Spans w := by
  have hp : p.digits ≤ 200 := p.le_max
  have hshift := quotientShift_le p a b
  have hupper := digitsUpper_le b.coeff.natAbs
  have hlower := digitsLower_le_digitCount a.coeff.natAbs
  have hcount := digitCount_wholeQuotient_le p a b
  have hae := a.exp_lt_top
  have hbe := b.exp_lt_top
  obtain ⟨halow, hatop⟩ := ha
  obtain ⟨hblow, hbtop⟩ := hb
  rw [top] at hae hbe hatop hbtop
  have hlow : -(w : ℤ) ≤ a.exp - b.exp - quotientShift p a b := by omega
  have htop : a.exp - b.exp - quotientShift p a b +
      digitCount ((dividend p a b).tdiv b.coeff).natAbs + 1 ≤ w := by omega
  obtain ⟨hround, hspans⟩ :=
    round_spans p ((dividend p a b).tmod b.coeff != 0) (by omega) hlow htop hmax
  refine ⟨⟨isExponent_of_mem ?_ ?_, isExponent_of_mem ?_ ?_, isCount_of_le ?_,
    isExponent_of_mem ?_ ?_, hround⟩, hspans⟩ <;> omega

theorem Spans.quotient (ha : a.Spans u) (hb : b.Spans v) (hw : u + v + 206 ≤ w)
    (hmax : w ≤ maxSpan) {q : Decimal} (hq : a.div? p b = some q) : q.Spans w := by
  unfold div? at hq
  split at hq
  · cases hq
  · split at hq
    · cases hq
      exact zero_spans (by omega)
    · cases hq
      exact (ha.wholeQuotient p hb hw hmax).2

end Operators

end Decimal

open Decimal

/-- What an operator computes fits, and its result spans little more than both operands. -/
theorem BinaryOperator.apply_spans (p : Precision) (op : BinaryOperator) {a b : Decimal}
    {u v w : ℕ} (ha : a.Spans u) (hb : b.Spans v) (hw : u + v + 206 ≤ w) (hmax : w ≤ maxSpan) :
    op.Fits p a b ∧ ∀ r, op.apply p a b = .ok r → r.Spans w := by
  cases op with
  | add =>
    obtain ⟨halign, hround, hspans⟩ := ha.aligned p hb Int.natAbs_add_le (by omega) hmax
    exact ⟨⟨halign, hround⟩, fun r hr => Except.ok.inj hr ▸ hspans⟩
  | sub =>
    obtain ⟨halign, hround, hspans⟩ := ha.aligned p hb Int.natAbs_sub_le (by omega) hmax
    exact ⟨⟨halign, hround⟩, fun r hr => Except.ok.inj hr ▸ hspans⟩
  | mul =>
    obtain ⟨hround, hspans⟩ := ha.product p hb (by omega) hmax
    exact ⟨hround, fun r hr => Except.ok.inj hr ▸ hspans⟩
  | div =>
    exact ⟨fun _ _ => (ha.wholeQuotient p hb hw hmax).1,
      fun r hr => ha.quotient hb hw hmax (apply_div_ok_iff.1 hr)⟩

end ExactCalculator
