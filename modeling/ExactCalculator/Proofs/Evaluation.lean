import ExactCalculator.Evaluation
import ExactCalculator.Proofs.Conversion
import ExactCalculator.Proofs.Scanning

/-!
# The stages of an evaluation

Evaluating a text is reading its tokens, converting them and calculating the result, each stage
only when the one before it succeeds (`evaluate_eq`); a blank text fails as an empty list of
tokens does. The faults of reading (`Token.scan_error`) and of converting (`toRpn_error`) are all
faults of writing, so a division by zero can only come from the calculation
(`stages_of_evaluate`). `ReachesFrom` is the calculator's run on the tokens of a text.
-/

namespace ExactCalculator

/-! ## The error of each stage -/

/-- Reading fails at a run of numerals that is no literal, or at a character it does not know. -/
theorem Token.scan_error {cs : List Char} {err : EvalError} (h : scan cs = .error err) :
    (∃ literal, err = .malformedNumber literal) ∨ ∃ c, err = .invalidCharacter c := by
  fun_induction scan cs with
  | case1 => cases h
  | case2 c cs hb ih => exact ih h
  | case3 c cs hb token ht ih =>
    cases hs : scan cs with
    | error e =>
      obtain rfl : e = err := by simpa [hs, Except.map] using h
      exact ih hs
    | ok rest => simp [hs, Except.map] at h
  | case4 c cs hb ht hn run hl =>
    rename_i ih
    cases hs : scan (cs.dropWhile isNumeral) with
    | error e =>
      obtain rfl : e = err := by simpa [hs, Except.map] using h
      exact ih hs
    | ok rest => simp [hs, Except.map] at h
  | case5 c cs hb ht hn run hl =>
    cases h
    exact Or.inl ⟨_, rfl⟩
  | case6 c cs hb ht hn =>
    cases h
    exact Or.inr ⟨_, rfl⟩

namespace Converter

theorem finish_ok_iff {c : Converter} {rpn : List Token} :
    c.finish = .ok rpn ↔ c.position.expectsValue = false ∧ c.enclosing = [] ∧
      rpn = (write c.output c.waiting).reverse := by
  unfold finish
  cases hp : c.position.expectsValue with
  | true => simp
  | false => cases he : c.enclosing <;> simp [eq_comm]

theorem finish_error {c : Converter} {err : EvalError} (h : c.finish = .error err) :
    err = .trailingOperator ∨ err = .mismatchedParentheses := by
  unfold finish at h
  split at h
  · cases h
    exact Or.inl rfl
  · split at h
    · cases h
    · cases h
      exact Or.inr rfl

theorem run_error {c : Converter} {tokens : List Token} {err : EvalError}
    (h : (c.run tokens).verdict = .error err) :
    err = .operatorAfterOperator ∨ err = .trailingOperator ∨ err = .mismatchedParentheses := by
  induction tokens generalizing c with
  | nil => exact Or.inr (finish_error h)
  | cons token tokens ih =>
    cases hpush : c.push token with
    | ok next =>
      rw [run_cons_ok hpush] at h
      exact ih h
    | error e =>
      obtain rfl : e = err := by simpa [run, hpush] using h
      rcases push_error hpush with ⟨rfl, -, -⟩ | ⟨rfl, -, -⟩
      · exact Or.inr (Or.inr rfl)
      · exact Or.inl rfl

end Converter

theorem toRpn_error {tokens : List Token} {err : EvalError} (h : toRpn tokens = .error err) :
    err = .emptyExpression ∨ err = .operatorAfterOperator ∨ err = .trailingOperator ∨
      err = .mismatchedParentheses := by
  by_cases hne : tokens = []
  · subst hne
    cases h
    exact Or.inl rfl
  · rw [toRpn, convert_eq_run hne] at h
    exact Or.inr (Converter.run_error h)

/-! ## The stages one after the other -/

theorem reportTokens_verdict (p : Precision) (tokens : List Token) :
    (reportTokens p tokens).verdict = (do
      let rpn ← toRpn tokens
      let result ← evalRpn p rpn
      return ⟨result, Token.format tokens, Token.format rpn⟩) := by
  cases hc : (convert tokens).verdict with
  | error e => simp only [reportTokens, toRpn, hc, bind, Except.bind]
  | ok rpn =>
    cases hv : (calculate p rpn).verdict with
    | error e => simp only [reportTokens, toRpn, evalRpn, hc, hv, bind, Except.bind]
    | ok v =>
      simp only [reportTokens, toRpn, evalRpn, hc, hv, bind, Except.bind, pure, Except.pure]

theorem report_of_tokenize_error {p : Precision} {text : String} {err : EvalError}
    (h : Token.tokenize text = .error err) : report p text = ⟨[], .error err⟩ := by
  rw [Token.tokenize, ← Token.scan_trim] at h
  rw [report]
  cases htrim : Text.trim text.toList with
  | nil =>
    rw [htrim, Token.scan] at h
    cases h
  | cons c cs =>
    rw [htrim] at h
    simp only [h]

theorem report_of_tokenize {p : Precision} {text : String} {tokens : List Token}
    (hne : Text.trim text.toList ≠ []) (h : Token.tokenize text = .ok tokens) :
    report p text = reportTokens p tokens := by
  rw [Token.tokenize, ← Token.scan_trim] at h
  rw [report]
  cases htrim : Text.trim text.toList with
  | nil => exact absurd htrim hne
  | cons c cs =>
    rw [htrim] at h
    simp only [h]

theorem evaluateSteps_eq (p : Precision) (text : String) :
    evaluateSteps p text = (do
      let tokens ← Token.tokenize text
      (reportTokens p tokens).verdict) := by
  by_cases htrim : Text.trim text.toList = []
  · rw [Token.tokenize, ← Token.scan_trim, evaluateSteps, report, htrim, Token.scan]
    rfl
  · cases h : Token.tokenize text with
    | error err =>
      rw [evaluateSteps, report_of_tokenize_error h]
      rfl
    | ok tokens =>
      rw [evaluateSteps, report_of_tokenize htrim h]
      rfl

theorem evaluate_eq (p : Precision) (text : String) :
    evaluate p text = (do
      let tokens ← Token.tokenize text
      let rpn ← toRpn tokens
      evalRpn p rpn) := by
  rw [evaluate, evaluateSteps_eq]
  cases Token.tokenize text with
  | error e => rfl
  | ok tokens =>
    simp only [bind, Except.bind, reportTokens_verdict]
    cases toRpn tokens with
    | error e => rfl
    | ok rpn => cases h : evalRpn p rpn <;> simp [Except.map, pure, Except.pure, h]

section

variable {p : Precision} {text : String} {tokens rpn : List Token}

theorem evaluateSteps_of_toRpn (htokens : Token.tokenize text = .ok tokens)
    (hrpn : toRpn tokens = .ok rpn) :
    evaluateSteps p text =
      (evalRpn p rpn).map fun result => ⟨result, Token.format tokens, Token.format rpn⟩ := by
  rw [evaluateSteps_eq, htokens]
  simp only [bind, Except.bind, reportTokens_verdict, hrpn]
  cases evalRpn p rpn <;> rfl

theorem evaluate_of_toRpn (htokens : Token.tokenize text = .ok tokens)
    (hrpn : toRpn tokens = .ok rpn) : evaluate p text = evalRpn p rpn := by
  rw [evaluate_eq, htokens]
  simp only [bind, Except.bind, hrpn]

end

/-- A value or a division by zero shows that the text was read and converted. -/
theorem stages_of_evaluate {p : Precision} {text : String}
    (h : (∃ v, evaluate p text = .ok v) ∨ evaluate p text = .error .divisionByZero) :
    ∃ tokens rpn, Token.tokenize text = .ok tokens ∧ toRpn tokens = .ok rpn := by
  rw [evaluate_eq] at h
  cases ht : Token.tokenize text with
  | error e =>
    obtain ⟨v, hv⟩ | he := h
    · simp [ht, bind, Except.bind] at hv
    · obtain rfl : e = .divisionByZero := by simpa [ht, bind, Except.bind] using he
      rcases Token.scan_error ht with ⟨literal, hl⟩ | ⟨c, hc⟩
      · cases hl
      · cases hc
  | ok tokens =>
    cases hr : toRpn tokens with
    | error e =>
      obtain ⟨v, hv⟩ | he := h
      · simp [ht, hr, bind, Except.bind] at hv
      · obtain rfl : e = .divisionByZero := by simpa [ht, hr, bind, Except.bind] using he
        rcases toRpn_error hr with he | he | he | he <;> cases he
    | ok rpn => exact ⟨tokens, rpn, rfl, hr⟩

/-! ## The run on a text -/

namespace Calculator

/-- The evaluation of a text comes to the calculator `c`, with the tokens `rest` still to be
read. -/
def ReachesFrom (p : Precision) (text : String) (c : Calculator) (rest : List Token) : Prop :=
  ∃ tokens before, Token.tokenize text = .ok tokens ∧ toRpn tokens = .ok (before ++ rest) ∧
    start.Reaches p before c

/-- The value of a text is the last one on the stack. -/
theorem reachesFrom_of_evaluate {p : Precision} {text : String} {v : Decimal}
    (h : evaluate p text = .ok v) : ∃ c, ReachesFrom p text c [] ∧ c.values = [v] := by
  obtain ⟨tokens, rpn, htokens, hrpn⟩ := stages_of_evaluate (Or.inl ⟨v, h⟩)
  rw [evaluate_of_toRpn htokens hrpn] at h
  obtain ⟨c, hc, hv⟩ := evalRpn_ok_iff.1 h
  refine ⟨c, ⟨tokens, rpn, htokens, ?_, hc⟩, hv⟩
  rwa [List.append_nil]

end Calculator

end ExactCalculator
