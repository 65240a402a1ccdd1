import ExactCalculator.Rpn.Position

/-!
# From infix to reverse Polish notation

A `Converter` reads infix tokens one by one. Numbers go straight to the output; operators wait
until an operator that does not bind tighter, a closing parenthesis or the end releases them.
Each open parenthesis has a list of waiting operators of its own, so that none of them can be
released before the parenthesis is closed.

`convert` answers the tokens in reverse Polish notation, or the error, together with the
operators released by a later operator, in order.
-/

namespace ExactCalculator

structure Converter where
  /-- The tokens written so far, latest first. -/
  output : List Token
  /-- The operators waiting inside the innermost open parenthesis, latest first. -/
  waiting : List Operator
  /-- The operators waiting around each open parenthesis, innermost first. -/
  enclosing : List (List Operator)
  position : Position
  /-- The operators released by a later operator, latest first. -/
  popped : List Operator
  deriving DecidableEq, Repr

/-- What a conversion answers. The popped operators are kept when it fails. -/
structure Conversion where
  popped : List Operator
  verdict : Except EvalError (List Token)

namespace Converter

def start : Converter := ⟨[], [], [], .start, []⟩

/-- Writes released operators to the output, the first of the list first. -/
def write (output : List Token) (released : List Operator) : List Token :=
  (released.map Token.operator).reverse ++ output

/-- Reads an operator whose reading is settled. -/
def pushOperator (c : Converter) (op : Operator) : Converter :=
  let released := c.waiting.takeWhile (·.precedes op)
  { c with
    output := write c.output released
    waiting := op :: c.waiting.dropWhile (·.precedes op)
    position := .afterOperator
    popped := released.reverse ++ c.popped }

def push (c : Converter) : Token → Except EvalError Converter
  | .number literal =>
    .ok { c with output := .number literal :: c.output, position := .afterNumber }
  | .opening =>
    .ok { c with waiting := [], enclosing := c.waiting :: c.enclosing, position := .afterOpening }
  | .closing =>
    match c.enclosing with
    | [] => .error .mismatchedParentheses
    | outer :: enclosing =>
      .ok { c with output := write c.output c.waiting, waiting := outer, enclosing := enclosing,
                   position := .afterClosing }
  | .operator op => (c.position.resolve op).map c.pushOperator

/-- The end of the tokens: the expression is complete and every parenthesis closed. -/
def finish (c : Converter) : Except EvalError (List Token) :=
  if c.position.expectsValue then .error .trailingOperator
  else if c.enclosing.isEmpty then .ok (write c.output c.waiting).reverse
  else .error .mismatchedParentheses

def run (c : Converter) : List Token → Conversion
  | [] => ⟨c.popped.reverse, c.finish⟩
  | token :: tokens =>
    match c.push token with
    | .ok next => next.run tokens
    | .error e => ⟨c.popped.reverse, .error e⟩

end Converter

/-- Converts infix tokens, with the account of the operators popped on the way. -/
def convert : List Token → Conversion
  | [] => ⟨[], .error .emptyExpression⟩
  | tokens => Converter.start.run tokens

/-- Infix tokens in reverse Polish notation. -/
def toRpn (tokens : List Token) : Except EvalError (List Token) := (convert tokens).verdict

end ExactCalculator
