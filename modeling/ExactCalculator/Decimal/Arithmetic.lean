import ExactCalculator.Decimal.Rounding

/-!
# Arithmetic on decimal numbers

Sum, difference, product and quotient are formed exactly on coefficients and exponents and then
rounded once to the working precision. A quotient is formed with at least one digit more than
the precision, and a remainder that is left marks it as inexact.

Here exponents are whole numbers of any size, but the digits that a coefficient grows by are counted
in 32 bits.
-/

namespace ExactCalculator

namespace Decimal

/-- The power of ten by which a coefficient grows to close the gap between two exponents. It is
counted in 32 bits. -/
def alignmentShift (a b : Decimal) : Nat := (a.exp - b.exp).natAbs % UInt32.size

/-- The coefficients of two numbers at the smaller of their exponents, and that exponent. -/
def align (a b : Decimal) : Int × Int × Int :=
  let scale : Int := tenPow (alignmentShift a b)
  if a.exp < b.exp then (a.coeff, b.coeff * scale, a.exp)
  else (a.coeff * scale, b.coeff, b.exp)

def add (p : Precision) (a b : Decimal) : Decimal :=
  let (x, y, exp) := align a b
  round p (x + y) exp false

def sub (p : Precision) (a b : Decimal) : Decimal :=
  let (x, y, exp) := align a b
  round p (x - y) exp false

def mul (p : Precision) (a b : Decimal) : Decimal :=
  round p (a.coeff * b.coeff) (a.exp + b.exp) false

/-- By how many digits a dividend is lengthened, so that the whole quotient has more digits than
the precision. -/
def quotientShift (p : Precision) (a b : Decimal) : Nat :=
  p.digits + 1 + digitsUpper b.coeff.natAbs - digitsLower a.coeff.natAbs

/-- The lengthened dividend. The power of ten by which it grows is taken of the shift in 32 bits. -/
def dividend (p : Precision) (a b : Decimal) : Int :=
  a.coeff * tenPow (quotientShift p a b % UInt32.size)

/-- The quotient, or nothing when the divisor is zero. -/
def div? (p : Precision) (a b : Decimal) : Option Decimal :=
  if b.isZero then none
  else if a.isZero then some zero
  else
    let dividend := dividend p a b
    some (round p (dividend.tdiv b.coeff) (a.exp - b.exp - quotientShift p a b)
      (dividend.tmod b.coeff != 0))

end Decimal

end ExactCalculator
