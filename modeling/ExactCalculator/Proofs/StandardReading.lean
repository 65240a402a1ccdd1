import ExactCalculator.Proofs.Evaluation
import ExactCalculator.Proofs.Literal

/-!
# The standard reading of an expression

A text whose tokens are an infix expression is evaluated as the tree of that expression:
`Infix.evaluate_eq_eval` for the value, `Infix.eval_error_iff` for the only error, and
`standard_reading` for the whole pipeline. The layout of the text, the depth of its groups and the
length of its chains of signs do not matter.
-/

namespace ExactCalculator

theorem Infix.parse_literal {level : Level} {tokens : List Token} {e : Expression}
    (h : Infix level tokens e) {literal : String} (hmem : literal ∈ e.literals) :
    ∃ d, Decimal.parse literal = .ok d ∧ d.value = literalValue literal.toList ∧ d.IsNormal :=
  Decimal.parse_of_isLiteral (h.isLiteral_of_mem_literals literal hmem)

theorem Infix.evaluate_eq_eval {text : String} {tokens : List Token} {e : Expression}
    (h : Infix .expression tokens e) (htokens : Token.tokenize text = .ok tokens)
    (p : Precision) : evaluate p text = e.eval p := by
  rw [evaluate_of_toRpn htokens h.toRpn_eq_rpn, evalRpn_rpn]

/-- An infix expression fails only when it divides by zero. -/
theorem Infix.eval_error_iff {level : Level} {tokens : List Token} {e : Expression}
    (h : Infix level tokens e) (p : Precision) (err : EvalError) :
    e.eval p = .error err ↔ err = .divisionByZero ∧
      ∃ l r v, .binary .div l r ∈ e.subterms ∧ r.eval p = .ok v ∧ v.value = 0 := by
  have hlit : ∀ literal ∈ e.literals, ∃ d, Decimal.parse literal = .ok d := by
    intro literal hmem
    obtain ⟨d, hd, -⟩ := h.parse_literal hmem
    exact ⟨d, hd⟩
  rw [Expression.eval_error_iff hlit]
  simp only [Decimal.value_eq_zero_iff]

/-- The pipeline computes the standard reading: a text whose tokens are an infix expression is
converted to the postorder list of the one tree of the expression and has the value of this tree,
with every literal read exactly; and it fails exactly when some divisor of the tree has the value
zero. -/
theorem standard_reading {text : String} {tokens : List Token} {e : Expression}
    (htokens : Token.tokenize text = .ok tokens) (h : Infix .expression tokens e)
    (p : Precision) :
    (∀ e', Infix .expression tokens e' → e' = e) ∧
      toRpn tokens = .ok e.rpn ∧
      evaluate p text = e.eval p ∧
      (∀ literal ∈ e.literals, ∃ d, Decimal.parse literal = .ok d ∧
        d.value = literalValue literal.toList ∧ d.IsNormal) ∧
      ∀ err, evaluate p text = .error err ↔ err = .divisionByZero ∧
        ∃ l r v, .binary .div l r ∈ e.subterms ∧ r.eval p = .ok v ∧ v.value = 0 := by
  have hvalue : evaluate p text = e.eval p := h.evaluate_eq_eval htokens p
  refine ⟨?_, h.toRpn_eq_rpn, hvalue, ?_, ?_⟩
  · intro e' h'
    exact h'.unique h
  · intro literal hmem
    exact h.parse_literal hmem
  · intro err
    rw [hvalue]
    exact h.eval_error_iff p err

theorem standard_reading_signed_product :
    Token.tokenize "- 2*(3+1)" = .ok [.operator (.binary .sub), .number "2",
        .operator (.binary .mul), .opening, .number "3", .operator (.binary .add), .number "1",
        .closing] ∧
      evaluate .standard "- 2*(3+1)" =
        (Expression.binary .mul (.signed .minus (.number "2"))
          (.binary .add (.number "3") (.number "1"))).eval .standard := by
  have htokens : Token.tokenize "- 2*(3+1)" = .ok ([.operator (.binary .sub), .number "2"] ++
      .operator (.binary .mul) ::
        (.opening :: ([.number "3"] ++ .operator (.binary .add) :: [.number "1"] ++
          [.closing]))) := by
    decide +kernel
  have hsum : Infix .expression ([.number "3"] ++ .operator (.binary .add) :: [.number "1"])
      (.binary .add (.number "3") (.number "1")) :=
    .sum (Or.inl rfl) (.ofTerm (.ofFactor (.number rfl))) (.ofFactor (.number rfl))
  have hsign : Infix .factor [.operator (.binary .sub), .number "2"]
      (.signed .minus (.number "2")) := .minus (.number rfl)
  have hproduct := Infix.product (Or.inl rfl) (.ofFactor hsign) (.group hsum)
  exact ⟨htokens, (standard_reading htokens (.ofTerm hproduct) .standard).2.2.1⟩

end ExactCalculator
