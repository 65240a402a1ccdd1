import ExactCalculator.Decimal.Rounding
import ExactCalculator.Proofs.DigitCount
import Mathlib.Algebra.Order.Field.Power
import Mathlib.Data.Rat.Floor
import Mathlib.Tactic.FieldSimp
import Mathlib.Tactic.Linarith
import Mathlib.Tactic.Positivity
import Mathlib.Tactic.Ring

/-!
# What a cut coefficient stands for

`Tail.Places t x`: the tail `t` says where the dropped part `x` of a unit lies against one half.
`Cut.Denotes c v`: the kept digits and the dropped part make up the magnitude `v`. Dropping
digits keeps the magnitude (`Cut.Marks.drop`), also when of the part behind the last digit is only
known whether it is zero (`Cut.Marks`). The magnitude and the number of digits dropped determine a
cut, so digits may be dropped in stages (`Cut.drop_drop`), shortening is one drop
(`Cut.shorten_drop_eq`), and what is dropped before it makes no difference to it
(`Cut.shorten_drop`).

This holds of the digits that are dropped. A block of `2 ^ 32` digits or more is counted in full but
dropped in part (`overcount`), which raises what rounding makes of it by as many places
(`Decimal.roundingCut_eq`).
-/

namespace ExactCalculator

/-- The count of digits fits into 32 bits. -/
def IsCount (k : ℕ) : Prop := k < UInt32.size

instance (k : ℕ) : Decidable (IsCount k) := inferInstanceAs (Decidable (k < UInt32.size))

/-- Of `k` digits that are dropped at once, those that are counted but stay. -/
def overcount (k : ℕ) : ℕ := k - k % UInt32.size

theorem overcount_eq_zero {k : ℕ} (h : IsCount k) : overcount k = 0 := by
  rw [overcount, Nat.mod_eq_of_lt h, Nat.sub_self]

namespace Tail

/-- The part `x` of a unit lies where the tail says. -/
def Places : Tail → ℚ → Prop
  | zero, x => x = 0
  | belowHalf, x => 0 < x ∧ x < 1 / 2
  | half, x => x = 1 / 2
  | aboveHalf, x => 1 / 2 < x ∧ x < 1

/-- Of the part `x` of a unit the tail says whether it is zero. -/
structure Marks (t : Tail) (x : ℚ) : Prop where
  nonneg : 0 ≤ x
  lt_one : x < 1
  eq_zero_iff : t = zero ↔ x = 0

theorem Places.marks {t : Tail} {x : ℚ} (h : t.Places x) : t.Marks x := by
  cases t with
  | zero =>
    obtain rfl : x = 0 := h
    exact ⟨le_rfl, by norm_num, by simp⟩
  | belowHalf =>
    obtain ⟨hlo, hhi⟩ : 0 < x ∧ x < 1 / 2 := h
    exact ⟨hlo.le, by linarith, by simp [hlo.ne']⟩
  | half =>
    obtain rfl : x = 1 / 2 := h
    exact ⟨by norm_num, by norm_num, by simp⟩
  | aboveHalf =>
    obtain ⟨hlo, hhi⟩ : 1 / 2 < x ∧ x < 1 := h
    have hne : x ≠ 0 := by linarith
    exact ⟨by linarith, hhi, by simp [hne]⟩

theorem marks_ofInexact {inexact : Bool} {x : ℚ} (h0 : 0 ≤ x) (h1 : x < 1)
    (h : inexact = true ↔ x ≠ 0) : (ofInexact inexact).Marks x := by
  refine ⟨h0, h1, ?_⟩
  cases inexact with
  | false => simpa [ofInexact, eq_comm] using h
  | true => simpa [ofInexact] using h

theorem exists_marks (t : Tail) : ∃ x, t.Marks x := by
  by_cases ht : t = zero
  · exact ⟨0, le_rfl, by norm_num, by simp [ht]⟩
  · exact ⟨1 / 2, by norm_num, by norm_num, by simp [ht]⟩

/-- The four places exclude each other. -/
theorem Places.unique {t t' : Tail} {x : ℚ} (h : t.Places x) (h' : t'.Places x) : t = t' := by
  cases t <;> cases t' <;> grind [Places]

theorem Marks.pos_iff {t : Tail} {x : ℚ} (h : t.Marks x) : 0 < x ↔ t ≠ zero := by
  rw [Ne, h.eq_zero_iff]
  exact ⟨fun hx => hx.ne', fun hx => lt_of_le_of_ne h.nonneg (Ne.symm hx)⟩

/-! ## A remainder and what follows it -/

section Remainder

variable {r m : ℕ} {x : ℚ}

theorem belowHalf_places (hpos : 0 < (r : ℚ) + x) (hx : x < 1) (h : 2 * r + 2 ≤ m) :
    belowHalf.Places ((r + x) / m) := by
  have hm : (0 : ℚ) < m := by
    have : 0 < m := by omega
    exact_mod_cast this
  have hgap : 2 * (r : ℚ) + 2 ≤ m := by exact_mod_cast h
  refine ⟨div_pos hpos hm, ?_⟩
  rw [div_lt_div_iff₀ hm (by norm_num)]
  linarith

theorem aboveHalf_places (hr : r < m) (hx : x < 1) (h : (m : ℚ) < 2 * (r + x)) :
    aboveHalf.Places ((r + x) / m) := by
  have hm : (0 : ℚ) < m := by
    have : 0 < m := by omega
    exact_mod_cast this
  have hr : (r : ℚ) + 1 ≤ m := by exact_mod_cast hr
  constructor
  · rw [div_lt_div_iff₀ (by norm_num) hm]
    linarith
  · rw [div_lt_one hm]
    linarith

/-- Dropping `r` units out of an even number `m` of units in front of `x`. -/
theorem places_ofRemainder {t : Tail} (hm : 2 ∣ m) (hr : r < m) (h : t.Marks x) :
    (ofRemainder r m t).Places ((r + x) / m) := by
  unfold ofRemainder
  split
  · next hlt =>
    split
    · next hz =>
      have hx := h.eq_zero_iff.1 hz.2
      simp [Places, hz.1, hx]
    · next hz =>
      have hpos : 0 < (r : ℚ) + x := by
        by_cases hr0 : r = 0
        · rw [hr0, Nat.cast_zero, zero_add]
          exact h.pos_iff.2 fun ht => hz ⟨hr0, ht⟩
        · have : (0 : ℚ) < r := by exact_mod_cast Nat.pos_of_ne_zero hr0
          linarith [h.nonneg]
      exact belowHalf_places hpos h.lt_one (by omega)
  · next hge =>
    split
    · next heq =>
      have hmq : (m : ℚ) = 2 * r := by exact_mod_cast heq.symm
      split
      · next hz =>
        have hm0 : (m : ℚ) ≠ 0 := by
          have : m ≠ 0 := by omega
          exact_mod_cast this
        show (r + x) / m = 1 / 2
        rw [h.eq_zero_iff.1 hz, add_zero, div_eq_div_iff hm0 (by norm_num), hmq]
        ring
      · next hz =>
        have hx := h.pos_iff.2 hz
        exact aboveHalf_places hr h.lt_one (by linarith)
    · next hne =>
      have hgt : (m : ℚ) < 2 * r := by
        have : m < 2 * r := by omega
        exact_mod_cast this
      exact aboveHalf_places hr h.lt_one (by linarith [h.nonneg])

end Remainder

end Tail

namespace Cut

/-- The magnitude `v`, in units of the coefficient that is being cut. -/
def Denotes (c : Cut) (v : ℚ) : Prop :=
  ∃ x : ℚ, c.tail.Places x ∧ v = (c.kept + x) * 10 ^ c.dropped

/-- The same when of the dropped part is only known whether it is zero. -/
def Marks (c : Cut) (v : ℚ) : Prop :=
  ∃ x : ℚ, c.tail.Marks x ∧ v = (c.kept + x) * 10 ^ c.dropped

theorem Denotes.marks {c : Cut} {v : ℚ} (h : c.Denotes v) : c.Marks v := by
  obtain ⟨x, hx, hv⟩ := h
  exact ⟨x, hx.marks, hv⟩

/-- Nothing is dropped yet. -/
theorem marks_whole {coeff : ℤ} {inexact : Bool} {x : ℚ} (hx : (Tail.ofInexact inexact).Marks x) :
    (whole coeff inexact).Marks (coeff.natAbs + x) :=
  ⟨x, hx, by simp [whole]⟩

/-- As soon as a digit is dropped, the tail is placed. -/
theorem Marks.drop {c : Cut} {v : ℚ} (h : c.Marks v) (k : ℕ) : (c.drop (k + 1)).Denotes v := by
  obtain ⟨x, hx, rfl⟩ := h
  have hunit : tenPow (k + 1) = 10 ^ (k + 1) := rfl
  have hpos : (0 : ℚ) < 10 ^ (k + 1) := by positivity
  have heven : 2 ∣ tenPow (k + 1) := by
    rw [tenPow_succ]
    omega
  have hr : c.kept % tenPow (k + 1) < tenPow (k + 1) := Nat.mod_lt _ (tenPow_pos _)
  refine ⟨_, Tail.places_ofRemainder heven hr hx, ?_⟩
  have hsplit : (c.kept : ℚ) =
      10 ^ (k + 1) * (c.kept / 10 ^ (k + 1) : ℕ) + (c.kept % 10 ^ (k + 1) : ℕ) := by
    exact_mod_cast (Nat.div_add_mod c.kept (10 ^ (k + 1))).symm
  simp only [Cut.drop, hunit]
  generalize c.kept / 10 ^ (k + 1) = q at hsplit ⊢
  generalize c.kept % 10 ^ (k + 1) = r at hsplit ⊢
  rw [hsplit, Nat.cast_pow, Nat.cast_ofNat, pow_add (10 : ℚ) c.dropped]
  field_simp
  ring

theorem kept_drop (c : Cut) (k : ℕ) : (c.drop k).kept = c.kept / 10 ^ k := by
  cases k with
  | zero => simp [Cut.drop]
  | succ k => rfl

/-- What is kept is the whole part of the magnitude, in units of the last kept digit. -/
theorem Denotes.unique {c c' : Cut} {v : ℚ} (h : c.Denotes v) (h' : c'.Denotes v)
    (hdropped : c.dropped = c'.dropped) : c = c' := by
  obtain ⟨kept, tail, dropped⟩ := c
  obtain ⟨kept', tail', dropped'⟩ := c'
  obtain rfl : dropped = dropped' := hdropped
  obtain ⟨x, hx, hv⟩ := h
  obtain ⟨x', hx', hv'⟩ := h'
  have hpos : (10 : ℚ) ^ dropped ≠ 0 := by positivity
  have hsum : (kept : ℚ) + x = kept' + x' := mul_right_cancel₀ hpos (hv.symm.trans hv')
  have hkept : kept = kept' := by
    have hle : (kept : ℚ) < kept' + 1 := by linarith [hx.marks.nonneg, hx'.marks.lt_one]
    have hge : (kept' : ℚ) < kept + 1 := by linarith [hx'.marks.nonneg, hx.marks.lt_one]
    have hle' : kept < kept' + 1 := by exact_mod_cast hle
    have hge' : kept' < kept + 1 := by exact_mod_cast hge
    omega
  obtain rfl := hkept
  obtain rfl : x = x' := by linarith
  obtain rfl : tail = tail' := hx.unique hx'
  rfl

/-- Digits dropped in two stages are dropped at once. -/
theorem drop_drop (c : Cut) (j k : ℕ) : (c.drop j).drop k = c.drop (j + k) := by
  cases j with
  | zero => rw [Nat.zero_add, Cut.drop]
  | succ j =>
    cases k with
    | zero => rfl
    | succ k =>
      obtain ⟨x, hx⟩ := c.tail.exists_marks
      have hmarks : c.Marks ((c.kept + x) * 10 ^ c.dropped) := ⟨x, hx, rfl⟩
      exact ((hmarks.drop j).marks.drop k).unique (hmarks.drop (j + 1 + k))
        (Nat.add_assoc c.dropped (j + 1) (k + 1))

/-! ## Dropping the excess one by one -/

theorem shorten_of_lt {digits : ℕ} {c : Cut} (h : c.kept < 10 ^ digits) :
    shorten digits c = c := by
  rw [shorten]
  exact if_neg (not_le.2 h)

theorem shorten_of_le {digits : ℕ} {c : Cut} (h : 10 ^ digits ≤ c.kept) :
    shorten digits c = shorten digits (c.drop 1) := by
  rw [shorten]
  exact if_pos h

theorem kept_shorten_lt (digits : ℕ) (c : Cut) : (shorten digits c).kept < 10 ^ digits := by
  fun_induction shorten digits c with
  | case1 c h ih => exact ih
  | case2 c h => exact not_le.1 h

theorem le_kept_drop_one {digits : ℕ} (hd : 1 ≤ digits) {c : Cut} (h : 10 ^ digits ≤ c.kept) :
    10 ^ (digits - 1) ≤ (c.drop 1).kept := by
  rw [kept_drop, pow_one, Nat.le_div_iff_mul_le (by decide), ← pow_succ, Nat.sub_add_cancel hd]
  exact h

/-- Shortening drops the digits that are too many, also when some of them have been dropped
before. -/
theorem shorten_drop_eq {digits k n : ℕ} (hd : 1 ≤ digits) {c : Cut}
    (h : digitCount c.kept = digits + (k + n)) :
    shorten digits (c.drop k) = c.drop (k + n) := by
  induction n generalizing k with
  | zero =>
    refine shorten_of_lt ?_
    rw [kept_drop, Nat.div_lt_iff_lt_mul (by positivity), ← pow_add]
    exact (digitCount_le_iff (by omega)).1 h.le
  | succ n ih =>
    have hle : 10 ^ digits ≤ (c.drop k).kept := by
      rw [kept_drop, Nat.le_div_iff_mul_le (by positivity), ← pow_add]
      exact (lt_digitCount_iff (by omega)).1 (by omega)
    rw [shorten_of_le hle, drop_drop, ih (k := k + 1) (by omega), Nat.add_assoc, Nat.add_comm 1 n]

/-- Up to as many digits as are too many may be dropped at once before. -/
theorem shorten_drop {digits k : ℕ} (hd : 1 ≤ digits) {c : Cut}
    (hk : k ≤ digitCount c.kept - digits) : shorten digits (c.drop k) = shorten digits c := by
  by_cases hlong : digits ≤ digitCount c.kept
  · obtain ⟨n, hn⟩ := Nat.le.dest hlong
    have hall : shorten digits (c.drop 0) = c.drop (0 + n) := shorten_drop_eq hd (by omega)
    rw [shorten_drop_eq (n := n - k) hd (by omega), Nat.add_sub_cancel' (by omega), eq_comm]
    rwa [Nat.zero_add] at hall
  · obtain rfl : k = 0 := by omega
    rfl

/-- A coefficient with too many digits is cut to exactly as many as fit. -/
theorem Marks.shorten {digits : ℕ} (hd : 1 ≤ digits) {c : Cut} {v : ℚ} (h : c.Marks v)
    (hle : 10 ^ digits ≤ c.kept) :
    (shorten digits c).Denotes v ∧ 10 ^ (digits - 1) ≤ (Cut.shorten digits c).kept := by
  have hlong := lt_digitCount_of_le hle
  obtain ⟨n, hn⟩ : ∃ n, digitCount c.kept = digits + (n + 1) :=
    ⟨digitCount c.kept - digits - 1, by omega⟩
  have hcut : Cut.shorten digits c = c.drop (0 + (n + 1)) := shorten_drop_eq (k := 0) hd (by omega)
  rw [Nat.zero_add] at hcut
  rw [hcut]
  refine ⟨h.drop n, ?_⟩
  rw [kept_drop, Nat.le_div_iff_mul_le (by positivity), ← pow_add]
  exact (lt_digitCount_iff (by omega)).1 (by omega)

/-! ## The nearest coefficient -/

theorem Denotes.nearest {c : Cut} {v : ℚ} (h : c.Denotes v) :
    ∃ x : ℚ, v = (c.kept + x) * 10 ^ c.dropped ∧ 0 ≤ x ∧ x < 1 ∧
      ((x < 1 / 2 ∧ c.nearest = c.kept) ∨ (x = 1 / 2 ∧ c.nearest = c.kept + c.kept % 2) ∨
        (1 / 2 < x ∧ c.nearest = c.kept + 1)) := by
  obtain ⟨x, hx, hv⟩ := h
  refine ⟨x, hv, hx.marks.nonneg, hx.marks.lt_one, ?_⟩
  cases ht : c.tail with
  | zero =>
    rw [ht] at hx
    obtain rfl : x = 0 := hx
    exact Or.inl ⟨by norm_num, by simp [Cut.nearest, ht]⟩
  | belowHalf =>
    rw [ht] at hx
    exact Or.inl ⟨hx.2, by simp [Cut.nearest, ht]⟩
  | half =>
    rw [ht] at hx
    exact Or.inr (Or.inl ⟨hx, by simp [Cut.nearest, ht]⟩)
  | aboveHalf =>
    rw [ht] at hx
    exact Or.inr (Or.inr ⟨hx.1, by simp [Cut.nearest, ht]⟩)

/-- The digits dropped and those that have to stay are together at most those of the magnitude. -/
theorem Denotes.dropped_add_le {c : Cut} {digits n : ℕ} {x : ℚ} (h : c.Denotes (n + x))
    (hd : 1 ≤ digits) (hkept : 10 ^ (digits - 1) ≤ c.kept) (hx : x < 1) :
    c.dropped + digits ≤ digitCount n := by
  obtain ⟨y, hy, hv⟩ := h
  have hkeptq : (10 : ℚ) ^ (digits - 1) ≤ c.kept := by exact_mod_cast hkept
  have hlt : (10 : ℚ) ^ (digits - 1 + c.dropped) < n + 1 := by
    calc (10 : ℚ) ^ (digits - 1 + c.dropped)
        = 10 ^ (digits - 1) * 10 ^ c.dropped := pow_add _ _ _
      _ ≤ (c.kept + y) * 10 ^ c.dropped := by
        refine mul_le_mul_of_nonneg_right ?_ (by positivity)
        linarith [hy.marks.nonneg]
      _ = n + x := hv.symm
      _ < n + 1 := by linarith
  have hnat : 10 ^ (digits - 1 + c.dropped) < n + 1 := by exact_mod_cast hlt
  have hcount := lt_digitCount_of_le (Nat.lt_succ_iff.1 hnat)
  omega

theorem nearest_le (c : Cut) : c.nearest ≤ c.kept + 1 := by
  unfold nearest
  split <;> omega

theorem kept_le_nearest (c : Cut) : c.kept ≤ c.nearest := by
  unfold nearest
  split <;> omega

/-- What is not zero stays so. -/
theorem kept_shorten_pos {digits : ℕ} (hd : 1 ≤ digits) {c : Cut} (h : 0 < c.kept) :
    0 < (shorten digits c).kept := by
  fun_induction shorten digits c with
  | case1 c hle ih =>
    have hkept := le_kept_drop_one hd hle
    have hpos : 0 < 10 ^ (digits - 1) := by positivity
    exact ih (by omega)
  | case2 c hlt => exact h

theorem nearest_shorten_pos {digits : ℕ} (hd : 1 ≤ digits) {c : Cut} (h : 0 < c.kept) :
    0 < (shorten digits c).nearest :=
  (kept_shorten_pos hd h).trans_le (kept_le_nearest _)

/-- Only a carry makes a coefficient one digit longer than what is left of it. -/
theorem dropped_add_digitCount_le {digits : ℕ} (hd : 1 ≤ digits) (coeff : ℤ) (inexact : Bool) :
    (shorten digits (whole coeff inexact)).dropped +
      digitCount (shorten digits (whole coeff inexact)).nearest ≤ digitCount coeff.natAbs + 1 := by
  by_cases h : coeff.natAbs < 10 ^ digits
  · have hkept : (whole coeff inexact).nearest = coeff.natAbs := by cases inexact <;> rfl
    have hdropped : (whole coeff inexact).dropped = 0 := rfl
    rw [shorten_of_lt (c := whole coeff inexact) h, hkept, hdropped]
    omega
  · obtain ⟨x, hx⟩ := (Tail.ofInexact inexact).exists_marks
    obtain ⟨hden, hkept⟩ := (marks_whole hx).shorten hd (not_lt.1 h)
    have hdropped := hden.dropped_add_le hd hkept hx.lt_one
    have hlt := kept_shorten_lt digits (whole coeff inexact)
    have hnearest := (shorten digits (whole coeff inexact)).nearest_le
    have hcount : digitCount (shorten digits (whole coeff inexact)).nearest ≤ digits + 1 := by
      rw [digitCount_le_iff (Nat.succ_pos _), pow_succ]
      omega
    omega

/-! ## Digits that are counted but stay -/

/-- The same cut with `j` more digits counted as dropped. -/
def raised (c : Cut) (j : ℕ) : Cut := { c with dropped := c.dropped + j }

theorem raised_zero (c : Cut) : c.raised 0 = c := rfl

theorem dropBlock_eq (c : Cut) (k : ℕ) :
    c.dropBlock k = (c.drop (k % UInt32.size)).raised (overcount k) := by
  have hle := Nat.mod_le k UInt32.size
  have hdropped : (c.drop (k % UInt32.size)).dropped = c.dropped + k % UInt32.size := by
    cases k % UInt32.size <;> rfl
  rw [dropBlock, raised, hdropped, overcount]
  congr 1
  omega

theorem drop_raised (c : Cut) (j k : ℕ) : (c.raised j).drop k = (c.drop k).raised j := by
  cases k with
  | zero => rfl
  | succ k => simp only [drop, raised, Nat.add_right_comm]

theorem shorten_raised (digits : ℕ) (c : Cut) (j : ℕ) :
    shorten digits (c.raised j) = (shorten digits c).raised j := by
  fun_induction shorten digits c with
  | case1 c h ih => rw [shorten_of_le (c := c.raised j) h, drop_raised, ih]
  | case2 c h => exact shorten_of_lt (c := c.raised j) (not_le.1 h)

end Cut

namespace Decimal

/-- Nothing is dropped at once of a coefficient that fits. -/
theorem blockSize_of_lt {p : Precision} {coeff : ℤ} (h : coeff.natAbs < 10 ^ p.digits) :
    blockSize p coeff = 0 :=
  Nat.sub_eq_zero_of_le
    ((digitsLower_le_digitCount _).trans ((digitCount_le_iff p.one_le).2 h))

/-- What the estimate has dropped at once is what would be dropped one by one, but for the digits
that are counted without being dropped. -/
theorem roundingCut_eq (p : Precision) (coeff : ℤ) (inexact : Bool) :
    roundingCut p coeff inexact =
      (Cut.shorten p.digits (Cut.whole coeff inexact)).raised (overcount (blockSize p coeff)) := by
  have hest := digitsLower_le_digitCount coeff.natAbs
  have hmod := Nat.mod_le (blockSize p coeff) UInt32.size
  have hblock : blockSize p coeff % UInt32.size ≤
      digitCount (Cut.whole coeff inexact).kept - p.digits :=
    hmod.trans (Nat.sub_le_sub_right hest p.digits)
  rw [roundingCut, Cut.dropBlock_eq, Cut.shorten_raised, Cut.shorten_drop p.one_le hblock]

theorem roundingCut_of_isCount {p : Precision} {coeff : ℤ} (h : IsCount (blockSize p coeff))
    (inexact : Bool) :
    roundingCut p coeff inexact = Cut.shorten p.digits (Cut.whole coeff inexact) := by
  rw [roundingCut_eq, overcount_eq_zero h, Cut.raised_zero]

end Decimal

end ExactCalculator
