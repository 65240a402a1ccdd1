import ExactCalculator.Decimal.Arithmetic

/-!
# Arithmetic that stops

Exponents are computed in 64 bits, and the program stops where one of them does not fit. So each
operation is here a second time: with the exponents that it computes on the way to its result, and
without a result (`none`) if one of them does not fit.
-/

namespace ExactCalculator

namespace Decimal

/-- A result, unless one of the exponents that are computed on the way to it does not fit. -/
def checked {α : Type} (exponents : List Int) (result : α) : Option α :=
  if ∀ e ∈ exponents, IsExponent e then some result else none

/-! ## Exponents -/

/-- The exponents that rounding computes: the given one, the one after the cut, and the last one
that stripping zeros comes to. -/
def roundingExponents (p : Precision) (coeff exp : Int) (inexact : Bool) : List Int :=
  let cut := roundingCut p coeff inexact
  [exp, exp + cut.dropped, (ofCut coeff exp cut).exp]

/-- The exponents on the way to a combination `coeff` of two aligned coefficients: the gap, taken
from the smaller one, and those of rounding. -/
def alignedExponents (p : Precision) (a b : Decimal) (coeff : Int) : List Int :=
  (a.exp - b.exp).natAbs :: roundingExponents p coeff (align a b).2.2 false

/-- The exponents on the way to a quotient. There are none if an operand is zero. -/
def quotientExponents (p : Precision) (a b : Decimal) : List Int :=
  if b.isZero || a.isZero then []
  else
    let dividend := dividend p a b
    (a.exp - b.exp) :: roundingExponents p (dividend.tdiv b.coeff)
      (a.exp - b.exp - quotientShift p a b) (dividend.tmod b.coeff != 0)

/-! ## Operations -/

def roundChecked (p : Precision) (coeff exp : Int) (inexact : Bool) : Option Decimal :=
  checked (roundingExponents p coeff exp inexact) (round p coeff exp inexact)

def roundedChecked (p : Precision) (d : Decimal) : Option Decimal :=
  roundChecked p d.coeff d.exp false

def addChecked (p : Precision) (a b : Decimal) : Option Decimal :=
  let (x, y, _) := align a b
  checked (alignedExponents p a b (x + y)) (a.add p b)

def subChecked (p : Precision) (a b : Decimal) : Option Decimal :=
  let (x, y, _) := align a b
  checked (alignedExponents p a b (x - y)) (a.sub p b)

def mulChecked (p : Precision) (a b : Decimal) : Option Decimal :=
  roundChecked p (a.coeff * b.coeff) (a.exp + b.exp) false

/-- The program stops (`none`), or there is no quotient as the divisor is zero (`some none`), or
there is one. -/
def divChecked (p : Precision) (a b : Decimal) : Option (Option Decimal) :=
  checked (quotientExponents p a b) (a.div? p b)

end Decimal

end ExactCalculator
