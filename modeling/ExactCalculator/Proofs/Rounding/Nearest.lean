import Mathlib.Algebra.Order.Archimedean.Basic
import Mathlib.Algebra.Order.Field.Power
import Mathlib.Data.Rat.Floor
import Mathlib.Tactic.FieldSimp
import Mathlib.Tactic.Linarith
import Mathlib.Tactic.Positivity
import Mathlib.Tactic.Ring

/-!
# Rounding a rational number to significant digits

What rounding means, said without an algorithm. `RoundsTo p x y`: `y` is the multiple of `10 ^ e`
nearest to `x`, a half going to the even one, where `10 ^ e` is the place of the `p`-th
significant digit of `x`. Proved here:

* `RoundsTo.unique`: there is only one such `y`;
* `RoundsTo.hasDigits`, `RoundsTo.closest`: it has at most `p` significant digits, and no number
  with at most `p` significant digits is closer to `x`;
* `RoundsTo.eq_of_hasDigits`, `roundsTo_self`: a number that fits is not changed;
* `RoundsTo.mono`: a greater number has no smaller rounding;
* `roundsTo_of_parts`: how the digits after the `p`-th decide.
-/

namespace ExactCalculator

/-- At most `p` significant digits are needed to write `x`. -/
def HasDigits (p : ℕ) (x : ℚ) : Prop := ∃ c e : ℤ, |c| < 10 ^ p ∧ x = c * 10 ^ e

/-- The `p`-th significant digit of `x` counts `10 ^ e`. -/
structure LastPlace (p : ℕ) (x : ℚ) (e : ℤ) : Prop where
  le_abs : (10 : ℚ) ^ (e + p - 1) ≤ |x|
  abs_lt : |x| < (10 : ℚ) ^ (e + p)

/-- `y` is the multiple of `u` nearest to `x`, a half going to the even one. -/
def NearestMultiple (u x y : ℚ) : Prop :=
  ∃ m : ℤ, y = m * u ∧ 2 * |x - y| ≤ u ∧ (2 * |x - y| = u → Even m)

def RoundsTo (p : ℕ) (x y : ℚ) : Prop :=
  (x = 0 ∧ y = 0) ∨ ∃ e, LastPlace p x e ∧ NearestMultiple (10 ^ e) x y

/-! ## Powers of ten -/

theorem ten_zpow_pos (e : ℤ) : (0 : ℚ) < 10 ^ e := by positivity

theorem ten_zpow_add (a b : ℤ) : (10 : ℚ) ^ (a + b) = 10 ^ a * 10 ^ b :=
  zpow_add₀ (by norm_num) a b

theorem ten_zpow_le {a b : ℤ} : (10 : ℚ) ^ a ≤ 10 ^ b ↔ a ≤ b :=
  zpow_le_zpow_iff_right₀ (by norm_num)

theorem ten_zpow_lt {a b : ℤ} : (10 : ℚ) ^ a < 10 ^ b ↔ a < b :=
  zpow_lt_zpow_iff_right₀ (by norm_num)

/-- A multiple of a place is a multiple of every lower place. -/
theorem mul_ten_zpow_of_le (c : ℤ) {e f : ℤ} (h : e ≤ f) :
    ∃ k : ℤ, (c : ℚ) * 10 ^ f = k * 10 ^ e := by
  obtain ⟨n, rfl⟩ := Int.le.dest h
  refine ⟨c * 10 ^ n, ?_⟩
  rw [ten_zpow_add, zpow_natCast]
  push_cast
  ring

theorem abs_mul_ten_zpow_lt {p : ℕ} {c : ℤ} (hc : |c| < 10 ^ p) (f : ℤ) :
    |(c : ℚ) * 10 ^ f| < 10 ^ ((p : ℤ) + f) := by
  rw [abs_mul, abs_of_pos (ten_zpow_pos f), ten_zpow_add, zpow_natCast]
  refine mul_lt_mul_of_pos_right ?_ (ten_zpow_pos f)
  exact_mod_cast hc

theorem HasDigits.neg {p : ℕ} {x : ℚ} (h : HasDigits p x) : HasDigits p (-x) := by
  obtain ⟨c, e, hc, rfl⟩ := h
  refine ⟨-c, e, by rwa [abs_neg], ?_⟩
  push_cast
  ring

theorem HasDigits.mono {p q : ℕ} (hpq : p ≤ q) {x : ℚ} (h : HasDigits p x) : HasDigits q x := by
  obtain ⟨c, e, hc, hx⟩ := h
  exact ⟨c, e, hc.trans_le (pow_le_pow_right₀ (by norm_num) hpq), hx⟩

/-! ## The nearest multiple -/

namespace NearestMultiple

variable {u x y : ℚ}

theorem neg (h : NearestMultiple u x y) : NearestMultiple u (-x) (-y) := by
  obtain ⟨m, rfl, hle, heven⟩ := h
  have habs : |-x - -(m * u)| = |x - m * u| := by
    rw [← abs_neg]
    congr 1
    ring
  refine ⟨-m, by push_cast; ring, ?_, ?_⟩
  · rwa [habs]
  · rw [habs]
    intro ht
    exact (heven ht).neg

/-- Different multiples are at least one unit apart. -/
theorem le_abs_sub (hu : 0 < u) {m k : ℤ} (h : m ≠ k) : u ≤ |(m : ℚ) * u - k * u| := by
  have hmk : (1 : ℚ) ≤ |(m : ℚ) - k| := by
    have := Int.one_le_abs (sub_ne_zero.2 h)
    exact_mod_cast this
  rw [← sub_mul, abs_mul, abs_of_pos hu]
  exact le_mul_of_one_le_left hu.le hmk

theorem closest (hu : 0 < u) (h : NearestMultiple u x y) (k : ℤ) : |x - y| ≤ |x - k * u| := by
  obtain ⟨m, rfl, hle, -⟩ := h
  by_cases hk : m = k
  · rw [hk]
  · have hgap := le_abs_sub hu hk
    have htri : |(m : ℚ) * u - k * u| ≤ |x - m * u| + |x - k * u| := by
      rw [abs_sub_comm x (m * u)]
      exact abs_sub_le _ x _
    linarith

theorem unique (hu : 0 < u) {y' : ℚ} (h : NearestMultiple u x y) (h' : NearestMultiple u x y') :
    y = y' := by
  obtain ⟨m, rfl, hle, heven⟩ := h
  obtain ⟨k, rfl, hle', heven'⟩ := h'
  by_cases hk : m = k
  · rw [hk]
  · -- both are half a unit away, so both multiples are even and their distance is one unit
    have hgap := le_abs_sub hu hk
    have htri : |(m : ℚ) * u - k * u| ≤ |x - m * u| + |x - k * u| := by
      rw [abs_sub_comm x (m * u)]
      exact abs_sub_le _ x _
    have hm := heven (by linarith)
    have hk' := heven' (by linarith)
    have hunit : |(m : ℚ) - k| * u = 1 * u := by
      rw [one_mul, ← abs_of_pos hu, ← abs_mul, abs_of_pos hu, sub_mul]
      linarith
    have hone : |m - k| = 1 := by
      have := mul_right_cancel₀ hu.ne' hunit
      exact_mod_cast this
    obtain ⟨a, rfl⟩ := hm
    obtain ⟨b, rfl⟩ := hk'
    exfalso
    rcases abs_eq (by norm_num) |>.1 hone with h1 | h1 <;> omega

end NearestMultiple

/-! ## The last place -/

theorem exists_lastPlace (p : ℕ) {x : ℚ} (hx : x ≠ 0) : ∃ e, LastPlace p x e := by
  obtain ⟨n, hlo, hhi⟩ := exists_mem_Ico_zpow (y := (10 : ℚ)) (abs_pos.2 hx) (by norm_num)
  refine ⟨n + 1 - p, ?_, ?_⟩
  · rwa [sub_add_cancel, add_sub_cancel_right]
  · rwa [sub_add_cancel]

namespace LastPlace

variable {p : ℕ} {x : ℚ} {e : ℤ}

theorem neg (h : LastPlace p x e) : LastPlace p (-x) e :=
  ⟨by rw [abs_neg]; exact h.le_abs, by rw [abs_neg]; exact h.abs_lt⟩

theorem unique {e' : ℤ} (h : LastPlace p x e) (h' : LastPlace p x e') : e = e' := by
  have h1 := ten_zpow_lt.1 (h.le_abs.trans_lt h'.abs_lt)
  have h2 := ten_zpow_lt.1 (h'.le_abs.trans_lt h.abs_lt)
  omega

/-- A number that fits into `p` digits is a multiple of its last place. -/
theorem exists_multiple (h : LastPlace p x e) (hx : HasDigits p x) : ∃ k : ℤ, x = k * 10 ^ e := by
  obtain ⟨c, f, hc, rfl⟩ := hx
  refine mul_ten_zpow_of_le c ?_
  have := ten_zpow_lt.1 (h.le_abs.trans_lt (abs_mul_ten_zpow_lt hc f))
  omega

end LastPlace

/-! ## Rounding -/

namespace RoundsTo

variable {p : ℕ} {x y : ℚ}

theorem neg (h : RoundsTo p x y) : RoundsTo p (-x) (-y) := by
  obtain ⟨rfl, rfl⟩ | ⟨e, hlast, hnear⟩ := h
  · exact Or.inl ⟨neg_zero, neg_zero⟩
  · exact Or.inr ⟨e, hlast.neg, hnear.neg⟩

theorem not_lastPlace_zero {e : ℤ} : ¬ LastPlace p 0 e := by
  intro h
  have := h.le_abs
  rw [abs_zero] at this
  exact absurd (ten_zpow_pos _) (not_lt.2 this)

theorem unique {y' : ℚ} (h : RoundsTo p x y) (h' : RoundsTo p x y') : y = y' := by
  obtain ⟨rfl, rfl⟩ | ⟨e, hlast, hnear⟩ := h
  · obtain ⟨-, rfl⟩ | ⟨e', hlast', -⟩ := h'
    · rfl
    · exact absurd hlast' not_lastPlace_zero
  · obtain ⟨rfl, -⟩ | ⟨e', hlast', hnear'⟩ := h'
    · exact absurd hlast not_lastPlace_zero
    · obtain rfl := hlast.unique hlast'
      exact hnear.unique (ten_zpow_pos e) hnear'

/-- A carry past the first digit leaves a power of ten, which has one digit. -/
theorem hasDigits (hp : 1 ≤ p) (h : RoundsTo p x y) : HasDigits p y := by
  obtain ⟨-, rfl⟩ | ⟨e, hlast, m, rfl, hle, -⟩ := h
  · exact ⟨0, 0, by positivity, by norm_num⟩
  · have hpos := ten_zpow_pos e
    have hx : |x| < 10 ^ p * 10 ^ e := by
      have := hlast.abs_lt
      rwa [add_comm, ten_zpow_add, zpow_natCast] at this
    have htri : |(m : ℚ) * 10 ^ e| ≤ |x| + |x - m * 10 ^ e| := by
      have := abs_sub_abs_le_abs_sub ((m : ℚ) * 10 ^ e) x
      rw [abs_sub_comm] at this
      linarith
    rw [abs_mul, abs_of_pos hpos] at htri
    have hm : |m| ≤ 10 ^ p := by
      have hlt : |(m : ℚ)| < 10 ^ p + 1 := by
        refine lt_of_mul_lt_mul_right ?_ hpos.le
        linarith
      have hlt' : |m| < 10 ^ p + 1 := by exact_mod_cast hlt
      omega
    rcases lt_or_eq_of_le hm with hlt | heq
    · exact ⟨m, e, hlt, rfl⟩
    · have hten : (1 : ℤ) < 10 ^ p := one_lt_pow₀ (by norm_num) (by omega)
      have hsign : m = m.sign * 10 ^ p := by rw [← heq, Int.sign_mul_abs]
      have hunit : |m.sign| ≤ 1 := by
        rcases Int.sign_trichotomy m with h | h | h <;> simp [h]
      refine ⟨m.sign, p + e, hunit.trans_lt hten, ?_⟩
      rw [ten_zpow_add, zpow_natCast, ← mul_assoc]
      congr 1
      exact_mod_cast hsign

theorem closest (hp : 1 ≤ p) (h : RoundsTo p x y) {z : ℚ} (hz : HasDigits p z) :
    |x - y| ≤ |x - z| := by
  wlog h0 : 0 ≤ x generalizing x y z with H
  · have hneg := H h.neg hz.neg (by linarith)
    rwa [neg_sub_neg, neg_sub_neg, abs_sub_comm y, abs_sub_comm z] at hneg
  obtain ⟨rfl, rfl⟩ | ⟨e, hlast, hnear⟩ := h
  · simp
  · obtain ⟨c, f, hc, rfl⟩ := hz
    by_cases hef : e ≤ f
    · obtain ⟨k, hk⟩ := mul_ten_zpow_of_le c hef
      rw [hk]
      exact hnear.closest (ten_zpow_pos e) k
    · -- the number is smaller than every number with the last place of `x`
      have hsmall : (c : ℚ) * 10 ^ f < 10 ^ (e + p - 1) := by
        refine (le_abs_self _).trans_lt ((abs_mul_ten_zpow_lt hc f).trans_le ?_)
        exact ten_zpow_le.2 (by omega)
      have hx := hlast.le_abs
      rw [abs_of_nonneg h0] at hx
      obtain ⟨k, hk⟩ := mul_ten_zpow_of_le 1 (show e ≤ e + p - 1 by omega)
      rw [Int.cast_one, one_mul] at hk
      have hclose := hnear.closest (ten_zpow_pos e) k
      rw [← hk, abs_of_nonneg (sub_nonneg.2 hx)] at hclose
      rw [abs_of_nonneg (a := x - c * 10 ^ f) (by linarith)]
      linarith

theorem eq_of_hasDigits (hp : 1 ≤ p) (h : RoundsTo p x y) (hx : HasDigits p x) : y = x := by
  have hle := h.closest hp hx
  rw [sub_self, abs_zero] at hle
  exact (sub_eq_zero.1 (abs_nonpos_iff.1 hle)).symm

/-- If a smaller number had the greater rounding, it would lie above the midpoint of both, and the
greater number below. -/
theorem mono (hp : 1 ≤ p) {x' y' : ℚ} (h : RoundsTo p x y) (h' : RoundsTo p x' y')
    (hle : x ≤ x') : y ≤ y' := by
  by_contra hlt
  have hgap : y' < y := not_le.1 hlt
  have habove : y + y' ≤ 2 * x := by
    have hclose := (neg_le_abs (x - y)).trans (h.closest hp (h'.hasDigits hp))
    rcases abs_cases (x - y') with ⟨hside, -⟩ | ⟨hside, -⟩ <;> linarith
  have hbelow : 2 * x' ≤ y + y' := by
    have hclose := (le_abs_self (x' - y')).trans (h'.closest hp (h.hasDigits hp))
    rcases abs_cases (x' - y) with ⟨hside, -⟩ | ⟨hside, -⟩ <;> linarith
  have heq : x = x' := le_antisymm hle (by linarith)
  rw [← heq] at h'
  exact hgap.ne (h'.unique h)

end RoundsTo

theorem roundsTo_self {p : ℕ} {x : ℚ} (hx : HasDigits p x) : RoundsTo p x x := by
  by_cases h0 : x = 0
  · exact Or.inl ⟨h0, h0⟩
  · obtain ⟨e, hlast⟩ := exists_lastPlace p h0
    obtain ⟨k, hk⟩ := hlast.exists_multiple hx
    have hpos := ten_zpow_pos e
    refine Or.inr ⟨e, hlast, k, hk, ?_, ?_⟩
    · rw [sub_self, abs_zero, mul_zero]
      exact hpos.le
    · intro h
      rw [sub_self, abs_zero, mul_zero] at h
      exact absurd h hpos.ne

/-- The first `p` digits `m` of a number are followed by the part `t` of a unit: less than a half
is dropped, more than a half goes up, and a half goes to the even neighbour. -/
theorem roundsTo_of_parts {p m k : ℕ} {t : ℚ} (e : ℤ) (hp : 1 ≤ p) (hm : 10 ^ (p - 1) ≤ m)
    (hm' : m < 10 ^ p) (ht : 0 ≤ t) (ht' : t < 1)
    (hk : (t < 1 / 2 ∧ k = m) ∨ (t = 1 / 2 ∧ k = m + m % 2) ∨ (1 / 2 < t ∧ k = m + 1)) :
    RoundsTo p ((m + t) * 10 ^ e) (k * 10 ^ e) := by
  have hpos := ten_zpow_pos e
  have hmq : (10 : ℚ) ^ (p - 1) ≤ m := by exact_mod_cast hm
  have hmq' : (m : ℚ) + 1 ≤ 10 ^ p := by exact_mod_cast hm'
  have hnonneg : (0 : ℚ) ≤ (m + t) * 10 ^ e := by positivity
  refine Or.inr ⟨e, ⟨?_, ?_⟩, k, by push_cast; ring, ?_⟩
  · have hexp : e + p - 1 = ((p - 1 : ℕ) : ℤ) + e := by omega
    rw [abs_of_nonneg hnonneg, hexp, ten_zpow_add, zpow_natCast]
    exact mul_le_mul_of_nonneg_right (by linarith) hpos.le
  · rw [abs_of_nonneg hnonneg, add_comm e, ten_zpow_add, zpow_natCast]
    exact mul_lt_mul_of_pos_right (by linarith) hpos
  · rw [← sub_mul, abs_mul, abs_of_pos hpos, ← mul_assoc]
    have hhalf : 2 * |(m : ℚ) + t - k| ≤ 1 ∧ (2 * |(m : ℚ) + t - k| = 1 → Even (k : ℤ)) := by
      rcases hk with ⟨hlt, rfl⟩ | ⟨rfl, hk⟩ | ⟨hgt, rfl⟩
      · rw [add_sub_cancel_left, abs_of_nonneg ht]
        exact ⟨by linarith, fun h => by linarith⟩
      · constructor
        · rcases Nat.mod_two_eq_zero_or_one m with h | h
          · rw [hk, h, Nat.add_zero, add_sub_cancel_left]
            norm_num
          · rw [hk, h]
            push_cast
            rw [add_sub_add_left_eq_sub]
            norm_num
        · intro _
          have : Even k := Nat.even_iff.2 (by omega)
          exact_mod_cast this
      · push_cast
        rw [add_sub_add_left_eq_sub, abs_of_nonpos (by linarith)]
        exact ⟨by linarith, fun h => by linarith⟩
    refine ⟨?_, fun h => hhalf.2 ?_⟩
    · calc 2 * |(m : ℚ) + t - k| * 10 ^ e ≤ 1 * 10 ^ e :=
            mul_le_mul_of_nonneg_right hhalf.1 hpos.le
        _ = 10 ^ e := one_mul _
    · exact mul_right_cancel₀ hpos.ne' (h.trans (one_mul _).symm)

end ExactCalculator
