/-!
# Evaluation errors

Why an expression has no value. `message` is the text shown to the user, and `isSyntax` tells
a fault of writing from the one fault of calculation, a division by zero.
-/

namespace ExactCalculator

inductive EvalError where
  /-- The text is blank, or there is no token. -/
  | emptyExpression
  | invalidCharacter (c : Char)
  | malformedNumber (literal : String)
  /-- A `*` or `/` stands where a value is expected. -/
  | operatorAfterOperator
  /-- An operator finds too few values. -/
  | missingOperands
  | trailingOperator
  | mismatchedParentheses
  | divisionByZero
  /-- The values left at the end are not exactly one, or a parenthesis stands among them. -/
  | malformedExpression
  deriving DecidableEq, Repr

namespace EvalError

def message : EvalError → String
  | emptyExpression => "l’expression ne peut pas être vide"
  | invalidCharacter c => "caractère invalide : '" ++ String.singleton c ++ "'"
  | malformedNumber literal => "nombre mal formé : '" ++ literal ++ "'"
  | operatorAfterOperator => "un opérateur ne peut pas suivre un autre opérateur"
  | missingOperands => "opérandes insuffisantes"
  | trailingOperator => "l’expression ne peut pas se terminer par un opérateur"
  | mismatchedParentheses => "parenthèses non appariées"
  | divisionByZero => "division par zéro"
  | malformedExpression => "expression mal formée"

/-- Every error but a division by zero comes from how the expression is written. -/
def isSyntax : EvalError → Bool
  | divisionByZero => false
  | _ => true

end EvalError

end ExactCalculator
