import ExactCalculator.Decimal.Basic

/-!
# Plain decimal text

A number is written without an exponent: a minus sign if it is negative, the digits, and a point
where the exponent puts it. Nothing is written after a whole number, no zero ends a fraction, and
one zero stands before the point of a number below one.
-/

namespace ExactCalculator

namespace Decimal

/-- The digits of a magnitude `coeff · 10 ^ exp`, with a point where one is needed. -/
def plainMagnitude (coeff : Nat) (exp : Int) : List Char :=
  let digits := Nat.toDigits 10 coeff
  if 0 ≤ exp then digits ++ List.replicate exp.toNat '0'
  else
    let places := exp.natAbs
    if places < digits.length then
      digits.take (digits.length - places) ++ '.' :: digits.drop (digits.length - places)
    else '0' :: '.' :: (List.replicate (places - digits.length) '0' ++ digits)

def plainChars (d : Decimal) : List Char :=
  (if d.isNegative then ['-'] else []) ++ plainMagnitude d.coeff.natAbs d.exp

/-- The plain text of a number. -/
def toText (d : Decimal) : String := String.ofList d.plainChars

end Decimal

end ExactCalculator
