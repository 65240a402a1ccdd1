import ExactCalculator.Decimal.Basic
import ExactCalculator.EvalError

/-!
# Number literals

A literal is a run of ASCII digits with at most one point and at least one digit: `12`, `1.5`,
`.5`, `5.`. It is read exactly, whatever its length.
-/

namespace ExactCalculator

/-- The digits before and after the point of a literal, or nothing if it is malformed. -/
def splitLiteral (cs : List Char) : Option (List Char × List Char) :=
  let whole := cs.takeWhile (· != '.')
  let fraction := (cs.dropWhile (· != '.')).drop 1
  if whole.all Char.isDigit && fraction.all Char.isDigit
      && !(whole.isEmpty && fraction.isEmpty) then
    some (whole, fraction)
  else none

def isLiteral (cs : List Char) : Bool := (splitLiteral cs).isSome

namespace Decimal

/-- The number that a literal denotes. -/
def ofLiteral? (cs : List Char) : Option Decimal :=
  (splitLiteral cs).map fun (whole, fraction) =>
    normalize (Nat.ofDigitChars 10 (whole ++ fraction) 0) (-(fraction.length : Int))

def parse (literal : String) : Except EvalError Decimal :=
  match ofLiteral? literal.toList with
  | some d => .ok d
  | none => .error (.malformedNumber literal)

end Decimal

end ExactCalculator
