import ExactCalculator.Journal
import ExactCalculator.Rpn.Conversion
import ExactCalculator.Token.Scan

/-!
# Evaluating a text

An expression is trimmed, read as tokens, converted to reverse Polish notation and calculated at
a working precision. The first stage that fails gives the error.

* `report`: the verdict with the journal of the stages, kept also when a stage fails;
* `evaluateSteps`: the value with the texts of its tokens and of their conversion;
* `evaluate`: the value alone.
-/

namespace ExactCalculator

/-- A value, and the steps that led to it as displayed texts. -/
structure Steps where
  result : Decimal
  tokens : String
  rpn : String
  deriving DecidableEq, Repr

structure Report where
  journal : List Record
  verdict : Except EvalError Steps

/-- The account of converting and calculating tokens. -/
def reportTokens (p : Precision) (tokens : List Token) : Report :=
  let conversion := convert tokens
  let converting := Record.tokensRead tokens :: conversion.popped.map .operatorPopped
  match conversion.verdict with
  | .error e => ⟨converting, .error e⟩
  | .ok rpn =>
    let calculation := calculate p rpn
    let calculating :=
      converting ++ Record.rpnMade rpn :: calculation.completed.map .operationCompleted
    match calculation.verdict with
    | .error e => ⟨calculating, .error e⟩
    | .ok result =>
      ⟨calculating ++ [.resultFound result p],
        .ok ⟨result, Token.format tokens, Token.format rpn⟩⟩

/-- The account of evaluating a text. -/
def report (p : Precision) (text : String) : Report :=
  match Text.trim text.toList with
  | [] => ⟨[], .error .emptyExpression⟩
  | cs =>
    match Token.scan cs with
    | .error e => ⟨[], .error e⟩
    | .ok tokens => reportTokens p tokens

def evaluateSteps (p : Precision) (text : String) : Except EvalError Steps :=
  (report p text).verdict

/-- The value of a text. -/
def evaluate (p : Precision) (text : String) : Except EvalError Decimal :=
  (evaluateSteps p text).map Steps.result

/-- The value of a text that may be missing: no text is an empty expression. -/
def evaluateOptional (p : Precision) : Option String → Except EvalError Decimal
  | some text => evaluate p text
  | none => .error .emptyExpression

end ExactCalculator
