import ExactCalculator.Decimal.Plain
import ExactCalculator.Rpn.Evaluation

/-!
# Journal

The records that an evaluation leaves behind, in order. A record holds what happened; its
severity and its text are read off it.
-/

namespace ExactCalculator

inductive Severity where
  | warn
  | debug
  | trace
  deriving DecidableEq, Repr

def Severity.label : Severity → String
  | warn => "WARN"
  | debug => "DEBUG"
  | trace => "TRACE"

inductive Record where
  /-- A requested precision was out of bounds. -/
  | precisionClamped (requested : Nat)
  /-- The text was read as these tokens. -/
  | tokensRead (tokens : List Token)
  /-- A waiting operator was released by a later one. -/
  | operatorPopped (op : Operator)
  /-- The tokens were converted to these. -/
  | rpnMade (tokens : List Token)
  | operationCompleted (operation : Operation)
  | resultFound (result : Decimal) (p : Precision)
  deriving DecidableEq, Repr

namespace Record

def severity : Record → Severity
  | precisionClamped _ => .warn
  | tokensRead _ | rpnMade _ | resultFound _ _ => .debug
  | operatorPopped _ | operationCompleted _ => .trace

def message : Record → String
  | precisionClamped requested =>
    "précision " ++ toString requested ++ " hors bornes, ramenée à "
      ++ toString (Precision.clamp requested).digits
  | tokensRead tokens => "jetons: " ++ Token.format tokens
  | operatorPopped op => "dépile " ++ op.symbol
  | rpnMade tokens => "rpn: " ++ Token.format tokens
  | operationCompleted o =>
    o.left.toText ++ " " ++ (Operator.binary o.op).symbol ++ " " ++ o.right.toText
      ++ " = " ++ o.result.toText
  | resultFound result p =>
    "résultat: " ++ result.toText ++ " (précision " ++ toString p.digits ++ ")"

def line (r : Record) : String := r.severity.label ++ " " ++ r.message

/-- The record, if any, of a request for a number of digits. -/
def ofRequest (requested : Nat) : List Record :=
  if (Precision.clamp requested).digits = requested then [] else [precisionClamped requested]

end Record

end ExactCalculator
