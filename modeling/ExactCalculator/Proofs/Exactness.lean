import ExactCalculator.Proofs.Exponents.Operations
import ExactCalculator.Proofs.Exponents.Width
import ExactCalculator.Proofs.StandardReading

/-!
# Expressions that are evaluated exactly

Rounding keeps what fits. So if the exact results of all signs and operators of an expression fit
the precision, plus signs apart, then the expression has its exact value, however long its literals
are (`Expression.IsExact.evaluates`). Literals are read exactly, a plus sign changes nothing, and
each other operation is correctly rounded as long as all that it computes fits
(`BinaryOperator.apply_correct`), which the length of the text ensures.

As a value has one normal form, two such expressions with the same exact value have the same result,
at all precisions at which they are exact. Main statement: `exact_evaluation`.
-/

namespace ExactCalculator

open Decimal Token

/-! ## Exact values -/

/-- The exact result of a sign. -/
def Sign.exact (s : Sign) (x : ℚ) : ℚ :=
  match s with
  | .plus => x
  | .minus => -x

/-- The exact result of a binary operator. -/
def BinaryOperator.exact (op : BinaryOperator) (x y : ℚ) : ℚ :=
  match op with
  | .add => x + y
  | .sub => x - y
  | .mul => x * y
  | .div => x / y

namespace Expression

/-- The number that an expression stands for, with its literals as they are written. -/
def exactValue : Expression → ℚ
  | number literal => literalValue literal.toList
  | signed s e => s.exact e.exactValue
  | binary op l r => op.exact l.exactValue r.exactValue

/-- The operation at the root has an exact result that fits. Only literals and what is below plus
signs may be longer. -/
def RootFits (digits : ℕ) : Expression → Prop
  | number _ | signed .plus _ => True
  | signed .minus e => HasDigits digits (signed .minus e).exactValue
  | binary op l r =>
    HasDigits digits (binary op l r).exactValue ∧ (op = .div → r.exactValue ≠ 0)

/-- All operations of the expression have exact results that fit. -/
def IsExact (digits : ℕ) (e : Expression) : Prop := ∀ s ∈ e.subterms, s.RootFits digits

end Expression

theorem Expression.IsExact.mono {p q : ℕ} (hpq : p ≤ q) {e : Expression} (h : e.IsExact p) :
    e.IsExact q := by
  intro s hs
  have hfits := h s hs
  match s with
  | .number _ | .signed .plus _ => trivial
  | .signed .minus _ => exact HasDigits.mono hpq hfits
  | .binary _ _ _ => exact ⟨hfits.1.mono hpq, hfits.2⟩

/-! ## One operation -/

/-- An operator is correctly rounded if everything that it computes fits. -/
theorem BinaryOperator.apply_correct {p : Precision} {op : BinaryOperator} {a b : Decimal}
    (h : op.Fits p a b) (hdiv : op = .div → b.value ≠ 0) :
    ∃ r, op.apply p a b = .ok r ∧ CorrectlyRounded p (op.exact a.value b.value) r := by
  cases op with
  | add => exact ⟨_, rfl, add_correct h.1.gap_lt h.2.block⟩
  | sub => exact ⟨_, rfl, sub_correct h.1.gap_lt h.2.block⟩
  | mul => exact ⟨_, rfl, mul_correct (RoundingFits.block h)⟩
  | div =>
    obtain ⟨q, hq, hcorrect⟩ := div?_correct (hdiv rfl) h
    exact ⟨q, BinaryOperator.apply_div_ok_iff.2 hq, hcorrect⟩

/-! ## One expression -/

namespace Expression

/-- The value of the expression is its exact one. All digits of the value stand within places that
are charged to the characters of the expression. -/
structure Evaluates (p : Precision) (e : Expression) (v : Decimal) : Prop where
  eval : e.eval p = .ok v
  value : v.value = e.exactValue
  normal : v.IsNormal
  spans : ∃ m, totalWidth e.rpn = m + 1 ∧ v.Spans (200 * m + 1)

section

variable {p : Precision} {e l r : Expression} {v a b : Decimal}

theorem evaluates_number {literal : String} (h : isLiteral literal.toList = true) :
    ∃ v, (number literal).Evaluates p v := by
  obtain ⟨v, hv, hvalue, hnormal⟩ := parse_of_isLiteral h
  obtain ⟨hspans, hone⟩ := spans_of_parse hv
  refine ⟨v, hv, hvalue, hnormal, literal.length - 1, ?_, hspans.mono (by omega)⟩
  have hwidth : totalWidth (number literal).rpn = literal.length := by
    simp [rpn, totalWidth, width]
  omega

theorem totalWidth_rpn_signed (s : Sign) (e : Expression) :
    totalWidth (signed s e).rpn = totalWidth e.rpn + 1 := by
  rw [rpn, totalWidth_append]
  rfl

theorem totalWidth_rpn_binary (op : BinaryOperator) (l r : Expression) :
    totalWidth (binary op l r).rpn = totalWidth l.rpn + totalWidth r.rpn + 1 := by
  rw [rpn, totalWidth_append, totalWidth_append]
  rfl

theorem Evaluates.plus (h : e.Evaluates p v) : (signed .plus e).Evaluates p v := by
  obtain ⟨m, hm, hspans⟩ := h.spans
  refine ⟨eval_signed_ok.2 ⟨v, h.eval, rfl⟩, h.value, h.normal, m + 1, ?_, hspans.mono (by omega)⟩
  rw [totalWidth_rpn_signed, hm]

theorem Evaluates.minus (h : e.Evaluates p v) (hfits : (signed .minus e).RootFits p.digits)
    (hwidth : totalWidth (signed .minus e).rpn ≤ 10000000) :
    (signed .minus e).Evaluates p (v.neg.rounded p) := by
  obtain ⟨m, hm, hspans⟩ := h.spans
  rw [totalWidth_rpn_signed, hm] at hwidth
  have hneg : v.neg.value = (signed .minus e).exactValue := by
    rw [value_neg, h.value]
    rfl
  have hmax : 200 * (m + 1) + 1 ≤ maxSpan := by
    rw [maxSpan]
    omega
  obtain ⟨hround, hspans'⟩ := hspans.neg_rounded (p := p) (w := 200 * (m + 1) + 1) (by omega) hmax
  have hcorrect := rounded_correct hround.block
  refine ⟨eval_signed_ok.2 ⟨v, h.eval, rfl⟩, ?_, hcorrect.normal, m + 1, ?_, hspans'⟩
  · rw [hcorrect.exact (by rwa [hneg]), hneg]
  · rw [totalWidth_rpn_signed, hm]

theorem Evaluates.binary {op : BinaryOperator} (hl : l.Evaluates p a) (hr : r.Evaluates p b)
    (hfits : (binary op l r).RootFits p.digits)
    (hwidth : totalWidth (binary op l r).rpn ≤ 10000000) :
    ∃ v, (Expression.binary op l r).Evaluates p v := by
  obtain ⟨m, hm, hspansl⟩ := hl.spans
  obtain ⟨n, hn, hspansr⟩ := hr.spans
  rw [totalWidth_rpn_binary, hm, hn] at hwidth
  have hmax : 200 * (m + n + 2) + 1 ≤ maxSpan := by
    rw [maxSpan]
    omega
  obtain ⟨hop, hspans⟩ := op.apply_spans p hspansl hspansr (w := 200 * (m + n + 2) + 1) (by omega)
    hmax
  obtain ⟨v, hv, hcorrect⟩ := BinaryOperator.apply_correct hop (by
    intro hdiv
    rw [hr.value]
    exact hfits.2 hdiv)
  rw [hl.value, hr.value] at hcorrect
  refine ⟨v, eval_binary_ok.2 ⟨a, b, hl.eval, hr.eval, hv⟩, hcorrect.exact hfits.1,
    hcorrect.normal, m + n + 2, ?_, hspans v hv⟩
  rw [totalWidth_rpn_binary, hm, hn]
  omega

end

/-- An exact expression has its exact value. -/
theorem IsExact.evaluates {p : Precision} {e : Expression} (h : e.IsExact p.digits)
    (hlit : ∀ literal ∈ e.literals, isLiteral literal.toList = true)
    (hwidth : totalWidth e.rpn ≤ 10000000) : ∃ v, e.Evaluates p v := by
  induction e with
  | number literal => exact evaluates_number (hlit literal (by simp [literals]))
  | signed s e ih =>
    have hlt := totalWidth_rpn_signed s e
    obtain ⟨v, hv⟩ := ih (fun t ht => h t (by simp [subterms, ht])) hlit (by omega)
    cases s with
    | plus => exact ⟨v, hv.plus⟩
    | minus => exact ⟨_, hv.minus (h _ (by simp [subterms])) hwidth⟩
  | binary op l r ihl ihr =>
    have hlt := totalWidth_rpn_binary op l r
    obtain ⟨a, ha⟩ := ihl (fun t ht => h t (by simp [subterms, ht]))
      (fun s hs => hlit s (by simp [literals, hs])) (by omega)
    obtain ⟨b, hb⟩ := ihr (fun t ht => h t (by simp [subterms, ht]))
      (fun s hs => hlit s (by simp [literals, hs])) (by omega)
    exact ha.binary hb (h _ (by simp [subterms])) hwidth

end Expression

/-! ## Texts -/

/-- A text of at most ten million characters that is an infix expression with the value `x`, of
which all operations have exact results that fit. -/
structure IsExactText (digits : ℕ) (text : String) (x : ℚ) : Prop where
  length_le : text.length ≤ 10000000
  reading : ∃ tokens e, tokenize text = .ok tokens ∧ Infix .expression tokens e ∧
    e.IsExact digits ∧ e.exactValue = x

theorem IsExactText.mono {p q : ℕ} (hpq : p ≤ q) {text : String} {x : ℚ}
    (h : IsExactText p text x) : IsExactText q text x := by
  obtain ⟨tokens, e, htokens, he, hexact, hx⟩ := h.reading
  exact ⟨h.length_le, tokens, e, htokens, he, hexact.mono hpq, hx⟩

theorem IsExactText.exists_result {p : Precision} {text : String} {x : ℚ}
    (h : IsExactText p.digits text x) : ∃ v, evaluate p text = .ok v ∧ v.value = x ∧ v.IsNormal := by
  obtain ⟨tokens, e, htokens, he, hexact, rfl⟩ := h.reading
  have hwidth := (totalWidth_le_length htokens he.toRpn_eq_rpn).trans h.length_le
  obtain ⟨v, hv⟩ := hexact.evaluates he.isLiteral_of_mem_literals hwidth
  refine ⟨v, ?_, hv.value, hv.normal⟩
  rw [he.evaluate_eq_eval htokens]
  exact hv.eval

/-- An exact text is evaluated to the decimal, in normal form, of its exact value. Every other text
that has the same value and is exact at the precision of its own evaluation has the same result; so
has the text itself at all higher precisions. -/
theorem exact_evaluation {p : Precision} {text : String} {x : ℚ}
    (h : IsExactText p.digits text x) :
    ∃ v, evaluate p text = .ok v ∧ v.value = x ∧ v.IsNormal ∧
      (∀ (q : Precision) (text' : String), IsExactText q.digits text' x →
        evaluate q text' = .ok v) ∧
      ∀ q : Precision, p.digits ≤ q.digits → evaluate q text = .ok v := by
  obtain ⟨v, hv, hvalue, hnormal⟩ := h.exists_result
  have hsame : ∀ (q : Precision) (text' : String), IsExactText q.digits text' x →
      evaluate q text' = .ok v := by
    intro q text' h'
    obtain ⟨v', hv', hvalue', hnormal'⟩ := h'.exists_result
    rw [hv', eq_of_value_eq hnormal' hnormal (hvalue'.trans hvalue.symm)]
  exact ⟨v, hv, hvalue, hnormal, hsame, fun q hpq => hsame q text (h.mono hpq)⟩

/-- Two digits are enough for a difference of longer numbers and for a quotient with the same exact
value. -/
theorem long_difference_exact :
    ∃ v, evaluate (.clamp 2) "12345-12300" = .ok v ∧ v.value = 45 ∧
      evaluate (.clamp 2) "90/2" = .ok v ∧ evaluate .standard "12345-12300" = .ok v := by
  have hfits : HasDigits (Precision.clamp 2).digits 45 := ⟨45, 0, by decide, by norm_num⟩
  have hdifference : IsExactText (Precision.clamp 2).digits "12345-12300" 45 := by
    have htokens : tokenize "12345-12300" =
        .ok ([.number "12345"] ++ .operator (.binary .sub) :: [.number "12300"]) := by
      decide +kernel
    have hvalue : (Expression.binary .sub (.number "12345") (.number "12300")).exactValue = 45 := by
      decide +kernel
    refine ⟨by decide, _, _, htokens, .sum (Or.inr rfl) (.ofTerm (.ofFactor (.number rfl)))
      (.ofFactor (.number rfl)), ?_, hvalue⟩
    simpa [Expression.IsExact, Expression.subterms, Expression.RootFits, hvalue] using hfits
  have hquotient : IsExactText (Precision.clamp 2).digits "90/2" 45 := by
    have htokens : tokenize "90/2" =
        .ok ([.number "90"] ++ .operator (.binary .div) :: [.number "2"]) := by
      decide +kernel
    have hvalue : (Expression.binary .div (.number "90") (.number "2")).exactValue = 45 := by
      decide +kernel
    have hdivisor : (Expression.number "2").exactValue ≠ 0 := by decide +kernel
    refine ⟨by decide, _, _, htokens, .ofTerm (.product (Or.inr rfl) (.ofFactor (.number rfl))
      (.number rfl)), ?_, hvalue⟩
    simpa [Expression.IsExact, Expression.subterms, Expression.RootFits, hvalue] using
      ⟨hfits, hdivisor⟩
  obtain ⟨v, hv, hvalue, -, hsame, hmore⟩ := exact_evaluation hdifference
  exact ⟨v, hv, hvalue, hsame _ _ hquotient, hmore _ (by decide)⟩

end ExactCalculator
