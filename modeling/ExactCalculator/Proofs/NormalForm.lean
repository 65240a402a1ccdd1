import ExactCalculator.Proofs.Literal
import ExactCalculator.Proofs.Rounding.Correct
import ExactCalculator.Rpn.Evaluation

/-!
# Decimals that can be made are in normal form

Rounding leaves a decimal in normal form that fits the precision (`Decimal.IsRounded`), whatever it
is given; so does every sum, difference, product and quotient, whatever its operands
(`BinaryOperator.isRounded_of_apply`). Literals and whole numbers are normalized, and an opposite
keeps the form.

`makeAll` carries out a sequence of operations of which each may take any decimals made before it.
All that it makes is in normal form (`isNormal_of_mem_makeAll`), so equality is equality of numbers,
and the tests for zero and sign tell the truth: `made_decimals_normal`.
-/

namespace ExactCalculator

namespace Decimal

/-! ## What rounding leaves -/

/-- A decimal as rounding to the precision leaves it. -/
structure IsRounded (p : Precision) (d : Decimal) : Prop where
  normal : d.IsNormal
  natAbs_lt : d.coeff.natAbs < 10 ^ p.digits

theorem isRounded_round (p : Precision) (coeff exp : ℤ) (inexact : Bool) :
    IsRounded p (round p coeff exp inexact) := by
  rw [round_eq]
  have hkept := Cut.kept_shorten_lt p.digits (Cut.whole coeff inexact)
  generalize Cut.shorten p.digits (Cut.whole coeff inexact) = cut at hkept ⊢
  have hle : (coeff.sign * (cut.nearest : ℤ)).natAbs ≤ 10 ^ p.digits := by
    have hnearest := cut.nearest_le
    have hsign := natAbs_sign_mul_le coeff cut.nearest
    omega
  exact ⟨isNormal_normalize _ _,
    (digitCount_le_iff p.one_le).1 (digitCount_normalize_le hle _)⟩

theorem isRounded_zero (p : Precision) : IsRounded p zero :=
  ⟨Or.inl ⟨rfl, rfl⟩, Nat.pow_pos (by decide)⟩

theorem isRounded_of_div? {p : Precision} {a b q : Decimal} (h : a.div? p b = some q) :
    IsRounded p q := by
  unfold div? at h
  split at h
  · cases h
  · split at h
    · cases h
      exact isRounded_zero p
    · cases h
      exact isRounded_round p _ _ _

end Decimal

open Decimal

theorem BinaryOperator.apply_div_ok_iff {p : Precision} {a b q : Decimal} :
    div.apply p a b = .ok q ↔ a.div? p b = some q := by
  rw [apply]
  cases a.div? p b <;> simp

/-- Every result of an operator is rounded, whatever the operands. -/
theorem BinaryOperator.isRounded_of_apply {p : Precision} {op : BinaryOperator} {a b r : Decimal}
    (h : op.apply p a b = .ok r) : r.IsRounded p := by
  cases op with
  | add =>
    cases h
    exact isRounded_round p _ _ _
  | sub =>
    cases h
    exact isRounded_round p _ _ _
  | mul =>
    cases h
    exact isRounded_round p _ _ _
  | div => exact isRounded_of_div? (apply_div_ok_iff.1 h)

namespace Decimal

/-! ## The other ways to make a decimal -/

theorem isNormal_neg {d : Decimal} (h : d.IsNormal) : d.neg.IsNormal := by
  rcases h with ⟨hc, he⟩ | hc
  · exact Or.inl ⟨by rw [neg, hc, Int.neg_zero], he⟩
  · refine Or.inr ?_
    simp only [neg]
    omega

theorem isNormal_of_parse {literal : String} {d : Decimal} (h : parse literal = .ok d) :
    d.IsNormal := (ofLiteral?_exact (parse_eq_ok_iff.1 h)).2

theorem normalize_eq_self {c e : ℤ} (h : (⟨c, e⟩ : Decimal).IsNormal) :
    normalize c e = ⟨c, e⟩ :=
  eq_of_value_eq (isNormal_normalize c e) h (value_normalize c e)

/-! ## What the normal form is for -/

theorem eq_iff_value_eq {a b : Decimal} (ha : a.IsNormal) (hb : b.IsNormal) :
    (a == b) = true ↔ a.value = b.value := by
  rw [beq_iff_eq]
  exact ⟨fun h => by rw [h], eq_of_value_eq ha hb⟩

theorem isNegative_iff (d : Decimal) : d.isNegative = true ↔ d.value < 0 := by
  have hpos : (0 : ℚ) < 10 ^ d.exp := by positivity
  rw [isNegative, decide_eq_true_iff, value, Rat.mul_neg_iff_of_pos_right hpos, Int.cast_lt_zero]

end Decimal

/-! ## Sequences of operations -/

/-- An operation that makes a decimal. Its operands are decimals made before, numbered in the
order in which they were made. -/
inductive Making where
  | zero
  | ofInt (n : Int64)
  | parse (literal : String)
  | neg (i : ℕ)
  | rounded (p : Precision) (i : ℕ)
  | binary (p : Precision) (op : BinaryOperator) (i j : ℕ)
  deriving DecidableEq, Repr

/-- The decimal that is made, or nothing if an operand is missing, the literal is malformed or
the divisor is zero. -/
def Making.result? (made : List Decimal) : Making → Option Decimal
  | zero => some .zero
  | ofInt n => some (.ofInt n.toInt)
  | parse literal => (Decimal.parse literal).toOption
  | neg i => made[i]?.map Decimal.neg
  | rounded p i => made[i]?.map (Decimal.rounded p)
  | binary p op i j => do (op.apply p (← made[i]?) (← made[j]?)).toOption

/-- Carries out operations one after the other, with all decimals at hand that were made before. -/
def makeAll (made : List Decimal) : List Making → List Decimal
  | [] => made
  | m :: makings => makeAll (made ++ (m.result? made).toList) makings

theorem toOption_eq_some_iff {ε α : Type} {x : Except ε α} {a : α} :
    x.toOption = some a ↔ x = .ok a := by
  cases x <;> simp [Except.toOption]

/-- One operation keeps the normal form. -/
theorem Making.isNormal_result {made : List Decimal} (hmade : ∀ d ∈ made, d.IsNormal)
    {m : Making} {d : Decimal} (h : m.result? made = some d) : d.IsNormal := by
  cases m with
  | zero =>
    cases h
    exact Or.inl ⟨rfl, rfl⟩
  | ofInt n =>
    cases h
    exact isNormal_normalize _ _
  | parse literal => exact isNormal_of_parse (toOption_eq_some_iff.1 h)
  | neg i =>
    obtain ⟨a, ha, rfl⟩ := Option.map_eq_some_iff.1 h
    exact isNormal_neg (hmade a (List.mem_of_getElem? ha))
  | rounded p i =>
    obtain ⟨a, -, rfl⟩ := Option.map_eq_some_iff.1 h
    exact (isRounded_round p _ _ _).normal
  | binary p op i j =>
    simp only [Making.result?, Option.bind_eq_bind, Option.bind_eq_some_iff] at h
    obtain ⟨a, -, b, -, hab⟩ := h
    exact (BinaryOperator.isRounded_of_apply (toOption_eq_some_iff.1 hab)).normal

theorem isNormal_of_mem_makeAll {made : List Decimal} (hmade : ∀ d ∈ made, d.IsNormal)
    (makings : List Making) : ∀ d ∈ makeAll made makings, d.IsNormal := by
  induction makings generalizing made with
  | nil => exact hmade
  | cons m makings ih =>
    refine ih ?_
    intro d hd
    rcases List.mem_append.1 hd with hd | hd
    · exact hmade d hd
    · exact m.isNormal_result hmade (Option.mem_toList.1 hd)

/-- Whatever sequences of operations made two decimals, they are in normal form and equal exactly
when they are the same number, and the tests for zero and for a negative number are right. -/
theorem made_decimals_normal {makings makings' : List Making} {a b : Decimal}
    (ha : a ∈ makeAll [] makings) (hb : b ∈ makeAll [] makings') :
    a.IsNormal ∧ ((a == b) = true ↔ a.value = b.value) ∧
      (a.isZero = true ↔ a.value = 0) ∧ (a.isNegative = true ↔ a.value < 0) := by
  have hnormal : ∀ makings, ∀ d ∈ makeAll [] makings, d.IsNormal :=
    fun makings => isNormal_of_mem_makeAll (by simp) makings
  have hna := hnormal makings a ha
  have hnb := hnormal makings' b hb
  exact ⟨hna, eq_iff_value_eq hna hnb, (value_eq_zero_iff a).symm, isNegative_iff a⟩

/-- At one digit `0.96` is carried to `1.0`, and `1.50 - 0.5` cancels to it. -/
theorem carry_equals_difference :
    ∃ a b, a ∈ makeAll [] [.parse "0.96", .rounded (.clamp 1) 0] ∧
      b ∈ makeAll [] [.parse "1.50", .parse ".5", .binary .standard .sub 0 1] ∧
      (a == b) = true ∧ a.value = b.value ∧ a.IsNormal := by
  have ha : ⟨1, 0⟩ ∈ makeAll [] [.parse "0.96", .rounded (.clamp 1) 0] := by decide +kernel
  have hb : ⟨1, 0⟩ ∈ makeAll [] [.parse "1.50", .parse ".5", .binary .standard .sub 0 1] := by
    decide +kernel
  obtain ⟨hnormal, heq, -, -⟩ := made_decimals_normal ha hb
  exact ⟨_, _, ha, hb, rfl, heq.1 rfl, hnormal⟩

end ExactCalculator
