import ExactCalculator.Proofs.Pieces
import ExactCalculator.Proofs.PlainText
import ExactCalculator.Proofs.StandardReading

/-!
# A printed result is evaluated to itself

A result that is not negative is printed as a literal, which is read exactly. A negative one is
printed with a minus sign in front, and that sign rounds: it gives the result back only because
no value on the stack is ever negative and longer than the precision. Every value on the stack is
one that rounding left, or that of a literal of the list, and the value of a literal is not negative
(`Calculator.Reaches.isRounded_or_literal`, `Decimal.isNegative_of_parse`). Main statement:
`result_reads_back`.
-/

namespace ExactCalculator

open Decimal

/-! ## The values on the stack -/

theorem Decimal.isNegative_of_parse {literal : String} {v : Decimal}
    (h : parse literal = .ok v) : v.isNegative = false := by
  obtain ⟨⟨whole, fraction⟩, -, rfl⟩ := Option.map_eq_some_iff.1 (parse_eq_ok_iff.1 h)
  have hvalue : ¬ (normalize (Nat.ofDigitChars 10 (whole ++ fraction) 0 : ℕ)
      (-(fraction.length : ℤ))).value < 0 := by
    rw [value_normalize, Int.cast_natCast, not_lt]
    positivity
  rwa [← isNegative_iff, Bool.not_eq_true] at hvalue

/-- Each value is one that rounding left, or that of a literal, perhaps under plus signs. -/
theorem Calculator.Reaches.isRounded_or_literal {p : Precision} {tokens : List Token}
    {c : Calculator} (h : Calculator.start.Reaches p tokens c) :
    ∀ v ∈ c.values, v.IsRounded p ∨
      ∃ literal, Token.number literal ∈ tokens ∧ Decimal.parse literal = .ok v := by
  induction h with
  | refl => simp [Calculator.start]
  | @push tokens token mid next _ hpush ih =>
    have hkeep : ∀ v ∈ mid.values, v.IsRounded p ∨
        ∃ literal, Token.number literal ∈ tokens ++ [token] ∧ Decimal.parse literal = .ok v := by
      intro v hv
      rcases ih v hv with hr | ⟨literal, hmem, hparse⟩
      · exact Or.inl hr
      · exact Or.inr ⟨literal, by simp [hmem], hparse⟩
    rcases push_ok_iff.1 hpush with ⟨literal, w, rfl, hparse, rfl⟩ |
      ⟨s, w, rest, rfl, hvalues, rfl⟩ | ⟨op, a, b, rest, r, rfl, hvalues, hr, rfl⟩
    · intro v hv
      rcases List.mem_cons.1 hv with rfl | hv
      · exact Or.inr ⟨literal, by simp, hparse⟩
      · exact hkeep v hv
    · rw [hvalues] at hkeep
      intro v hv
      rcases List.mem_cons.1 hv with rfl | hv
      · cases s with
        | plus => exact hkeep w (by simp)
        | minus => exact Or.inl (isRounded_round p _ _ _)
      · exact hkeep v (by simp [hv])
    · rw [hvalues] at hkeep
      intro v hv
      rcases List.mem_cons.1 hv with rfl | hv
      · exact Or.inl (BinaryOperator.isRounded_of_apply hr)
      · exact hkeep v (by simp [hv])

/-! ## What rounding left is not rounded again -/

theorem Decimal.IsRounded.mono {p q : Precision} (hpq : p.digits ≤ q.digits) {v : Decimal}
    (h : v.IsRounded p) : v.IsRounded q :=
  ⟨h.normal, h.natAbs_lt.trans_le (Nat.pow_le_pow_right (by decide) hpq)⟩

theorem Decimal.IsRounded.rounded_eq {p : Precision} {v : Decimal} (h : v.IsRounded p) :
    v.rounded p = v := by
  rw [Decimal.rounded, round_eq, blockSize_of_lt h.natAbs_lt, ofCut_shorten_of_lt h.natAbs_lt]
  exact (congrArg _ (add_zero v.exp)).trans (normalize_eq_self h.normal)

/-! ## Reading a printed number -/

theorem IsMagnitude.isLiteral {cs : List Char} (h : IsMagnitude cs) :
    isLiteral cs = true := by
  cases h with
  | whole hw => rw [ExactCalculator.isLiteral, splitLiteral_whole hw.isDigits]; rfl
  | point hw hf => rw [ExactCalculator.isLiteral, splitLiteral_point hw.isDigits hf.1]; rfl

/-- A number without a sign is evaluated to the number that is read. -/
theorem evaluate_magnitude {cs : List Char} (h : IsMagnitude cs) (p : Precision) :
    evaluate p (String.ofList cs) = Decimal.parse (String.ofList cs) := by
  have htokens : Token.tokenize (String.ofList cs) = .ok [.number (String.ofList cs)] := by
    rw [Token.tokenize, String.toList_ofList]
    exact Token.scan_literal h.isLiteral
  have hnumber : Infix .factor [.number (String.ofList cs)] (.number (String.ofList cs)) :=
    .number (by rw [String.toList_ofList]; exact h.isLiteral)
  rw [Infix.evaluate_eq_eval (.ofTerm (.ofFactor hnumber)) htokens, Expression.eval]

/-- With a minus sign it is evaluated to the opposite number, rounded. -/
theorem evaluate_minus_magnitude {cs : List Char} (h : IsMagnitude cs) {p : Precision}
    {v : Decimal} (hv : Decimal.parse (String.ofList cs) = .ok v) :
    evaluate p (String.ofList ('-' :: cs)) = .ok (v.neg.rounded p) := by
  have htokens : Token.tokenize (String.ofList ('-' :: cs)) =
      .ok [.operator (.binary .sub), .number (String.ofList cs)] := by
    rw [Token.tokenize, String.toList_ofList, Token.scan_symbol rfl,
      Token.scan_literal h.isLiteral]
    rfl
  have hnumber : Infix .factor [.number (String.ofList cs)] (.number (String.ofList cs)) :=
    .number (by rw [String.toList_ofList]; exact h.isLiteral)
  rw [Infix.evaluate_eq_eval (.ofTerm (.ofFactor (.minus hnumber))) htokens,
    Expression.eval_signed, Expression.eval, hv]
  rfl

theorem evaluate_toText {p : Precision} {v : Decimal} (hn : v.IsNormal)
    (hr : v.isNegative = true → v.IsRounded p) : evaluate p v.toText = .ok v := by
  have hmagnitude := isMagnitude_plainMagnitude (isNormal_natAbs hn)
  cases hsign : v.isNegative with
  | false =>
    rw [toText_of_nonneg hsign, evaluate_magnitude hmagnitude, parse_plainMagnitude hn,
      natAbs_of_nonneg hsign]
  | true =>
    have hneg : v.neg.neg = v := by
      rw [neg, neg, Int.neg_neg]
    have hread := parse_plainMagnitude hn
    rw [natAbs_of_neg hsign] at hread
    rw [toText_of_neg hsign, evaluate_minus_magnitude hmagnitude hread, hneg,
      (hr hsign).rounded_eq]

/-! ## Results -/

/-- On every stack of values a negative value fits the precision, and a value that does not is that
of a literal; so the printed result of an evaluation is evaluated to this result, at every
precision that is not lower. -/
theorem result_reads_back (p : Precision) :
    (∀ tokens c, Calculator.start.Reaches p tokens c → ∀ v ∈ c.values, v.IsNormal ∧
      (v.isNegative = true → digitCount v.coeff.natAbs ≤ p.digits) ∧
      (p.digits < digitCount v.coeff.natAbs → v.isNegative = false ∧
        ∃ literal, Token.number literal ∈ tokens ∧ Decimal.parse literal = .ok v)) ∧
    ∀ q : Precision, p.digits ≤ q.digits → ∀ text v, evaluate p text = .ok v →
      evaluate q v.toText = .ok v := by
  constructor
  · intro tokens c h v hv
    rcases h.isRounded_or_literal v hv with hr | ⟨literal, hmem, hparse⟩
    · have hcount := (digitCount_le_iff p.one_le).2 hr.natAbs_lt
      exact ⟨hr.normal, fun _ => hcount, fun hlt => absurd hcount (not_le.2 hlt)⟩
    · have hsign := isNegative_of_parse hparse
      refine ⟨isNormal_of_parse hparse, ?_, fun _ => ⟨hsign, literal, hmem, hparse⟩⟩
      intro hneg
      rw [hsign] at hneg
      cases hneg
  · intro q hpq text v h
    obtain ⟨c, ⟨tokens, before, -, -, hc⟩, hvalues⟩ := Calculator.reachesFrom_of_evaluate h
    rcases hc.isRounded_or_literal v (by simp [hvalues]) with hr | ⟨literal, -, hparse⟩
    · exact evaluate_toText hr.normal fun _ => hr.mono hpq
    · refine evaluate_toText (isNormal_of_parse hparse) ?_
      intro hneg
      rw [isNegative_of_parse hparse] at hneg
      cases hneg

/-- At two digits the sign of `-125` rounds to `-120`, which is printed and evaluated at three. -/
theorem rounded_negation_reads_back :
    evaluate (.clamp 2) "-125" = .ok ⟨-12, 1⟩ ∧
      evaluate (.clamp 3) (⟨-12, 1⟩ : Decimal).toText = .ok ⟨-12, 1⟩ := by
  have h : evaluate (.clamp 2) "-125" = .ok ⟨-12, 1⟩ := by decide +kernel
  exact ⟨h, (result_reads_back (.clamp 2)).2 (.clamp 3) (by decide) "-125" _ h⟩

end ExactCalculator
