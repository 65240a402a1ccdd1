import ExactCalculator.Decimal.Arithmetic
import ExactCalculator.Decimal.Literal
import ExactCalculator.Token

/-!
# Evaluating reverse Polish notation

A `Calculator` keeps a stack of values. A number is read and put on it, a sign changes the top,
and a binary operator replaces the two top values by its result at the working precision. In
the end exactly one value has to be left.

`calculate` answers that value, or the error, together with the binary operations that were
completed, in order.
-/

namespace ExactCalculator

/-- The result of a binary operator on a left and a right value. -/
def BinaryOperator.apply (p : Precision) (op : BinaryOperator) (a b : Decimal) :
    Except EvalError Decimal :=
  match op with
  | .add => .ok (a.add p b)
  | .sub => .ok (a.sub p b)
  | .mul => .ok (a.mul p b)
  | .div =>
    match a.div? p b with
    | some q => .ok q
    | none => .error .divisionByZero

/-- A plus sign leaves a value as it is, longer than the precision or not; the opposite of a
value is rounded. -/
def Sign.apply (p : Precision) (s : Sign) (v : Decimal) : Decimal :=
  match s with
  | .plus => v
  | .minus => v.neg.rounded p

/-- A completed binary operation. -/
structure Operation where
  left : Decimal
  op : BinaryOperator
  right : Decimal
  result : Decimal
  deriving DecidableEq, Repr

structure Calculator where
  /-- The values, latest first. -/
  values : List Decimal
  /-- The operations completed, latest first. -/
  completed : List Operation
  deriving DecidableEq, Repr

/-- What a calculation answers. The completed operations are kept when it fails. -/
structure Calculation where
  completed : List Operation
  verdict : Except EvalError Decimal

namespace Calculator

def start : Calculator := ⟨[], []⟩

def push (p : Precision) (c : Calculator) : Token → Except EvalError Calculator
  | .number literal =>
    match Decimal.parse literal with
    | .ok v => .ok { c with values := v :: c.values }
    | .error e => .error e
  | .operator (.sign s) =>
    match c.values with
    | v :: rest => .ok { c with values := s.apply p v :: rest }
    | [] => .error .missingOperands
  | .operator (.binary op) =>
    match c.values with
    | b :: a :: rest =>
      match op.apply p a b with
      | .ok r => .ok ⟨r :: rest, ⟨a, op, b, r⟩ :: c.completed⟩
      | .error e => .error e
    | _ => .error .missingOperands
  | .opening | .closing => .error .malformedExpression

/-- The one value that is left. -/
def finish (c : Calculator) : Except EvalError Decimal :=
  match c.values with
  | [v] => .ok v
  | _ => .error .malformedExpression

def run (p : Precision) (c : Calculator) : List Token → Calculation
  | [] => ⟨c.completed.reverse, c.finish⟩
  | token :: tokens =>
    match c.push p token with
    | .ok next => next.run p tokens
    | .error e => ⟨c.completed.reverse, .error e⟩

end Calculator

/-- Evaluates tokens in reverse Polish notation, with the account of the operations completed. -/
def calculate (p : Precision) (tokens : List Token) : Calculation := Calculator.start.run p tokens

/-- The value of tokens in reverse Polish notation. -/
def evalRpn (p : Precision) (tokens : List Token) : Except EvalError Decimal :=
  (calculate p tokens).verdict

end ExactCalculator
