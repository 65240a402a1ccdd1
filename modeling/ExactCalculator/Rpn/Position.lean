import ExactCalculator.EvalError
import ExactCalculator.Token

/-!
# Positions between tokens

What the last token was decides how the next operator is read: where a value is expected, `+`
and `-` are signs, and `*` and `/` are misplaced.
-/

namespace ExactCalculator

/-- The place after a token. -/
inductive Position where
  /-- Also the start of an expression. -/
  | afterOperator
  | afterOpening
  | afterClosing
  | afterNumber
  deriving DecidableEq, Repr

namespace Position

def start : Position := afterOperator

def after : Token → Position
  | .number _ => afterNumber
  | .operator _ => afterOperator
  | .opening => afterOpening
  | .closing => afterClosing

/-- Whether a number, an opening parenthesis or a sign has to come next. -/
def expectsValue : Position → Bool
  | afterOperator | afterOpening => true
  | afterClosing | afterNumber => false

/-- The reading of an operator at this place. -/
def resolve (position : Position) (op : Operator) : Except EvalError Operator :=
  if position.expectsValue then
    match op.asSign? with
    | some s => .ok (.sign s)
    | none => .error .operatorAfterOperator
  else .ok op

end Position

end ExactCalculator
