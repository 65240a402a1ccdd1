/-!
# Tokens

The words of an expression: number literals, operators and parentheses. An operator is either
binary or the sign of one operand; a text spells signs and binary operators alike, so the
spellings `u+` and `u-` of signs appear in displayed steps only.
-/

namespace ExactCalculator

inductive Sign where
  | plus
  | minus
  deriving DecidableEq, Repr

inductive BinaryOperator where
  | add
  | sub
  | mul
  | div
  deriving DecidableEq, Repr

inductive Operator where
  | sign (s : Sign)
  | binary (op : BinaryOperator)
  deriving DecidableEq, Repr

namespace Operator

def symbol : Operator → String
  | binary .add => "+"
  | binary .sub => "-"
  | binary .mul => "*"
  | binary .div => "/"
  | sign .plus => "u+"
  | sign .minus => "u-"

/-- Operators of higher precedence bind tighter. -/
def precedence : Operator → Nat
  | binary .add | binary .sub => 1
  | binary .mul | binary .div => 2
  | sign _ => 3

def isSign : Operator → Bool
  | sign _ => true
  | binary _ => false

/-- Signs group to the right, as in `- - 3`; binary operators group to the left. -/
def groupsRight (op : Operator) : Bool := op.isSign

/-- The operator as a sign: `*` and `/` have no such reading. -/
def asSign? : Operator → Option Sign
  | sign s => some s
  | binary .add => some .plus
  | binary .sub => some .minus
  | binary .mul | binary .div => none

/-- A waiting operator is applied before the operator `next` is read further: it binds tighter,
or equally tight and `next` groups to the left. -/
def precedes (waiting next : Operator) : Bool :=
  next.precedence < waiting.precedence
    || (waiting.precedence == next.precedence && !next.groupsRight)

end Operator

/-- A number keeps the text of its literal; it is read when it is evaluated. -/
inductive Token where
  | number (literal : String)
  | operator (op : Operator)
  | opening
  | closing
  deriving DecidableEq, Repr

namespace Token

def text : Token → String
  | number literal => literal
  | operator op => op.symbol
  | opening => "("
  | closing => ")"

/-- The displayed form of a token list: the texts, one space apart. -/
def format (tokens : List Token) : String := " ".intercalate (tokens.map text)

end Token

end ExactCalculator
