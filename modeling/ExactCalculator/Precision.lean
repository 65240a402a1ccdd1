/-!
# Working precision

The number of significant digits that arithmetic keeps, always between one and
`Precision.maxDigits`. A request outside these bounds is moved to the nearer one (`clamp`).
-/

namespace ExactCalculator

/-- The greatest number of significant digits that can be asked for. -/
def Precision.maxDigits : Nat := 200

@[ext]
structure Precision where
  digits : Nat
  one_le : 1 ≤ digits
  le_max : digits ≤ Precision.maxDigits
  deriving DecidableEq, Repr

namespace Precision

/-- The precision used when none is asked for: 28 digits. -/
def standard : Precision := ⟨28, by decide, by decide⟩

instance : Inhabited Precision := ⟨standard⟩

/-- The precision nearest to a requested number of digits. -/
def clamp (requested : Nat) : Precision :=
  ⟨max 1 (min requested maxDigits), Nat.le_max_left _ _,
    Nat.max_le.2 ⟨by decide, Nat.min_le_right _ _⟩⟩

theorem clamp_digits_eq_iff (n : Nat) : (clamp n).digits = n ↔ 1 ≤ n ∧ n ≤ maxDigits := by
  simp only [clamp, maxDigits]
  omega

theorem clamp_digits (p : Precision) : clamp p.digits = p :=
  Precision.ext ((clamp_digits_eq_iff p.digits).2 ⟨p.one_le, p.le_max⟩)

end Precision

end ExactCalculator
