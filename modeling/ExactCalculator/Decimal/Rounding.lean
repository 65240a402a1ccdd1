import ExactCalculator.Decimal.Basic
import ExactCalculator.Decimal.Digits
import ExactCalculator.Precision

/-!
# Rounding to significant digits

A coefficient with too many digits is cut to the working precision and rounded to the nearest
kept coefficient, a half going to the even one.

* `Tail` places what was cut off against half a unit of the last kept digit;
* `Cut` is a coefficient that is being cut, with its tail and the number of digits dropped;
  `Cut.drop` drops any number of digits at once, `Cut.shorten` drops the excess one by one;
* `Decimal.roundingCut` first drops as many digits at once as are too many by the estimate
  `digitsLower`, which never exceeds the number of digits. They are counted in 32 bits when the
  power of ten is formed, but not when the exponent is (`Cut.dropBlock`);
* `Decimal.round` is the number nearest to what the cut leaves.
-/

namespace ExactCalculator

/-- What follows the last kept digit, against half a unit of that digit. -/
inductive Tail where
  | zero
  | belowHalf
  | half
  | aboveHalf
  deriving DecidableEq, Repr

namespace Tail

/-- The tail of `r` units out of `m`, `1 < m`, when `t` follows the last of the units. -/
def ofRemainder (r m : Nat) (t : Tail) : Tail :=
  if 2 * r < m then
    if r = 0 ∧ t = zero then zero else belowHalf
  else if 2 * r = m then
    if t = zero then half else aboveHalf
  else aboveHalf

/-- A tail of which only is known whether it is zero. As soon as one digit is dropped in front
of it, no more need be known. -/
def ofInexact (inexact : Bool) : Tail := if inexact then belowHalf else zero

end Tail

/-! ## Cutting -/

/-- A coefficient without the digits dropped from its end. -/
structure Cut where
  kept : Nat
  tail : Tail
  dropped : Nat
  deriving DecidableEq, Repr

namespace Cut

/-- A coefficient of which nothing is dropped yet. With `inexact`, the number meant lies strictly
beyond it, by less than one unit. -/
def whole (coeff : Int) (inexact : Bool) : Cut := ⟨coeff.natAbs, .ofInexact inexact, 0⟩

/-- Drops the last `k` digits at once. -/
def drop (c : Cut) : Nat → Cut
  | 0 => c
  | k + 1 =>
    let unit := tenPow (k + 1)
    ⟨c.kept / unit, .ofRemainder (c.kept % unit) unit c.tail, c.dropped + (k + 1)⟩

/-- Drops the last `k` digits at once, with a power of ten that is taken of `k` in 32 bits. All `k`
digits count as dropped. -/
def dropBlock (c : Cut) (k : Nat) : Cut :=
  { c.drop (k % UInt32.size) with dropped := c.dropped + k }

/-- Drops digits one by one until at most `digits` remain. -/
def shorten (digits : Nat) (c : Cut) : Cut :=
  if tenPow digits ≤ c.kept then shorten digits (c.drop 1) else c
termination_by c.kept
decreasing_by
  have h := tenPow_pos digits
  simp only [drop, tenPow_succ, tenPow_zero]
  omega

/-- The nearest whole coefficient, a half going to the even one. -/
def nearest (c : Cut) : Nat :=
  match c.tail with
  | .aboveHalf => c.kept + 1
  | .half => c.kept + c.kept % 2
  | _ => c.kept

end Cut

/-! ## Rounding -/

namespace Decimal

/-- How many digits are dropped at once: those that are too many by the estimate. -/
def blockSize (p : Precision) (coeff : Int) : Nat := digitsLower coeff.natAbs - p.digits

/-- What rounding to the working precision keeps and drops of a coefficient. -/
def roundingCut (p : Precision) (coeff : Int) (inexact : Bool) : Cut :=
  Cut.shorten p.digits ((Cut.whole coeff inexact).dropBlock (blockSize p coeff))

/-- The number nearest to `coeff · 10 ^ exp` when `cut` is what is kept and dropped of `coeff`. -/
def ofCut (coeff exp : Int) (cut : Cut) : Decimal :=
  normalize (coeff.sign * cut.nearest) (exp + cut.dropped)

/-- Rounds `coeff · 10 ^ exp` to the working precision. With `inexact`, the number meant lies
strictly beyond `coeff`, by less than one unit. -/
def round (p : Precision) (coeff exp : Int) (inexact : Bool) : Decimal :=
  ofCut coeff exp (roundingCut p coeff inexact)

/-- The number at the working precision. One that fits is unchanged. -/
def rounded (p : Precision) (d : Decimal) : Decimal := round p d.coeff d.exp false

end Decimal

end ExactCalculator
