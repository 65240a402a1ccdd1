import ExactCalculator.Proofs.DigitCount

/-!
# Strings of decimal digits

The digits of a number are read back by core's `Nat.ofDigitChars_ten_toDigits`. Here is the other
direction: digits written after the digits of a number that is not zero are again the digits of a
number (`toDigits_append`), so a string of digits without a leading zero is the one that its number
is written with (`toDigits_ofDigitChars`).

The first and the last digit of a number tell whether it is zero and whether it ends in zero
(`head?_toDigits_ne_zero`, `getLast?_toDigits_ne_zero_iff`), and a string of `k` digits writes a
number below `10 ^ k` (`ofDigitChars_lt`).
-/

namespace ExactCalculator

/-- At least one character, and digits only. -/
structure IsDigits (cs : List Char) : Prop where
  ne_nil : cs ≠ []
  isDigit : ∀ c ∈ cs, c.isDigit = true

theorem IsDigits.append {cs ds : List Char} (hc : IsDigits cs) (hd : IsDigits ds) :
    IsDigits (cs ++ ds) := by
  refine ⟨by simp [hc.ne_nil], ?_⟩
  intro c hmem
  exact (List.mem_append.1 hmem).elim (hc.isDigit c) (hd.isDigit c)

theorem IsDigits.exists_cons {cs : List Char} (h : IsDigits cs) :
    ∃ c ds, cs = c :: ds ∧ c.isDigit = true := by
  cases cs with
  | nil => exact absurd rfl h.ne_nil
  | cons c ds => exact ⟨c, ds, rfl, h.isDigit c (by simp)⟩

/-! ## One digit -/

theorem digit_bounds {c : Char} (h : c.isDigit = true) : 48 ≤ c.toNat ∧ c.toNat ≤ 57 :=
  Char.isDigit_iff_toNat.1 h

theorem digit_value_lt {c : Char} (h : c.isDigit = true) : c.toNat - '0'.toNat < 10 := by
  have := digit_bounds h
  have hzero : '0'.toNat = 48 := rfl
  omega

/-- A digit writes its own value. -/
theorem toDigits_digit_value {c : Char} (h : c.isDigit = true) :
    Nat.toDigits 10 (c.toNat - '0'.toNat) = [c] := by
  have hlt := digit_value_lt h
  have hbounds := digit_bounds h
  have hzero : '0'.toNat = 48 := rfl
  rw [Nat.toDigits_of_lt_base hlt, List.singleton_inj, ← Char.toNat_inj,
    Nat.toNat_digitChar_of_lt_ten hlt]
  omega

theorem digit_value_pos {c : Char} (h : c.isDigit = true) (hne : c ≠ '0') :
    0 < c.toNat - '0'.toNat := by
  rw [Nat.pos_iff_ne_zero]
  intro h0
  have hwritten := toDigits_digit_value h
  rw [h0, Nat.toDigits_zero, List.singleton_inj] at hwritten
  exact hne hwritten.symm

/-! ## The digits of a number -/

theorem isDigits_toDigits (n : ℕ) : IsDigits (Nat.toDigits 10 n) :=
  ⟨Nat.toDigits_ne_nil, fun _ hc => Nat.isDigit_of_mem_toDigits (by decide) (by decide) hc⟩

theorem head?_toDigits_ne_zero {n : ℕ} (hn : n ≠ 0) : (Nat.toDigits 10 n).head? ≠ some '0' := by
  induction n using Nat.strong_induction_on with
  | _ n ih =>
    by_cases hlt : n < 10
    · rw [Nat.toDigits_of_lt_base hlt, List.head?_singleton, ne_eq, Option.some_inj,
        Nat.digitChar_eq_zero]
      exact hn
    · have hprefix := ih (n / 10) (by omega) (by omega)
      rw [Nat.toDigits_of_base_le (by decide) (not_lt.1 hlt)]
      cases hdigits : Nat.toDigits 10 (n / 10) with
      | nil => exact absurd hdigits Nat.toDigits_ne_nil
      | cons d ds => rwa [hdigits] at hprefix

theorem getLast?_toDigits (n : ℕ) :
    (Nat.toDigits 10 n).getLast? = some (Nat.digitChar (n % 10)) := by
  by_cases hlt : n < 10
  · rw [Nat.toDigits_of_lt_base hlt, Nat.mod_eq_of_lt hlt, List.getLast?_singleton]
  · rw [Nat.toDigits_of_base_le (by decide) (not_lt.1 hlt), List.getLast?_concat]

theorem getLast?_toDigits_ne_zero_iff {n : ℕ} :
    (Nat.toDigits 10 n).getLast? ≠ some '0' ↔ n % 10 ≠ 0 := by
  rw [getLast?_toDigits, ne_eq, Option.some_inj, Nat.digitChar_eq_zero]

/-! ## The number of a string of digits -/

theorem ofDigitChars_lt_mul {cs : List Char} (h : ∀ c ∈ cs, c.isDigit = true) (n : ℕ) :
    Nat.ofDigitChars 10 cs n < (n + 1) * 10 ^ cs.length := by
  induction cs generalizing n with
  | nil => simp
  | cons c cs ih =>
    have hc := digit_value_lt (h c (by simp))
    rw [Nat.ofDigitChars_cons]
    calc Nat.ofDigitChars 10 cs (10 * n + (c.toNat - '0'.toNat))
        < (10 * n + (c.toNat - '0'.toNat) + 1) * 10 ^ cs.length :=
          ih (fun d hd => h d (by simp [hd])) _
      _ ≤ ((n + 1) * 10) * 10 ^ cs.length := Nat.mul_le_mul_right _ (by omega)
      _ = (n + 1) * 10 ^ (c :: cs).length := by
        rw [List.length_cons, pow_succ', mul_assoc]

theorem ofDigitChars_lt {cs : List Char} (h : ∀ c ∈ cs, c.isDigit = true) :
    Nat.ofDigitChars 10 cs 0 < 10 ^ cs.length := by
  have hlt := ofDigitChars_lt_mul h 0
  rwa [zero_add, one_mul] at hlt

/-- The last digit decides whether the number ends in zero. -/
theorem ofDigitChars_mod_ten_ne_zero {cs : List Char} (h : ∀ c ∈ cs, c.isDigit = true)
    (hne : cs ≠ []) (hlast : cs.getLast? ≠ some '0') : Nat.ofDigitChars 10 cs 0 % 10 ≠ 0 := by
  obtain ⟨ds, c, rfl⟩ : ∃ ds c, cs = ds ++ [c] := ⟨_, _, (List.dropLast_concat_getLast hne).symm⟩
  have hc := h c (by simp)
  have hlt := digit_value_lt hc
  have hpos := digit_value_pos hc (by rintro rfl; exact hlast List.getLast?_concat)
  rw [Nat.ofDigitChars_append, Nat.ofDigitChars_cons, Nat.ofDigitChars_nil]
  omega

/-- Zeros in front of a string that does not end in zero. -/
theorem exists_zeros_append {cs : List Char} (h : IsDigits cs) (hlast : cs.getLast? ≠ some '0') :
    ∃ k ds, cs = List.replicate k '0' ++ ds ∧ IsDigits ds ∧ ds.head? ≠ some '0' := by
  obtain ⟨hne, hdigit⟩ := h
  induction cs with
  | nil => exact absurd rfl hne
  | cons c cs ih =>
    by_cases hc : c = '0'
    · subst hc
      have hne' : cs ≠ [] := by
        rintro rfl
        exact hlast rfl
      have hlast' : cs.getLast? ≠ some '0' := by
        rwa [List.getLast?_cons_of_ne_nil hne'] at hlast
      obtain ⟨k, ds, rfl, hds, hhead⟩ := ih hlast' hne' fun d hd => hdigit d (by simp [hd])
      exact ⟨k + 1, ds, rfl, hds, hhead⟩
    · exact ⟨0, c :: cs, rfl, ⟨hne, hdigit⟩, fun h0 => hc (Option.some.inj h0)⟩

/-- Digits written after those of a number that is not zero. -/
theorem toDigits_append {cs : List Char} (h : ∀ c ∈ cs, c.isDigit = true) {n : ℕ} (hn : 0 < n) :
    Nat.toDigits 10 n ++ cs = Nat.toDigits 10 (Nat.ofDigitChars 10 cs n) := by
  induction cs generalizing n with
  | nil => rw [List.append_nil, Nat.ofDigitChars_nil]
  | cons c cs ih =>
    have hc := h c (by simp)
    rw [Nat.ofDigitChars_cons, ← ih (fun d hd => h d (by simp [hd])) (by omega),
      ← Nat.toDigits_append_toDigits (by decide) hn (digit_value_lt hc), toDigits_digit_value hc,
      List.append_assoc, List.singleton_append]

/-- Zeros written after the digits multiply by a power of ten. -/
theorem toDigits_mul_pow {n : ℕ} (hn : 0 < n) (k : ℕ) :
    Nat.toDigits 10 (n * 10 ^ k) = Nat.toDigits 10 n ++ List.replicate k '0' := by
  have hzeros : ∀ c ∈ List.replicate k '0', c.isDigit = true := by
    intro c hc
    rw [List.eq_of_mem_replicate hc]
    rfl
  rw [toDigits_append hzeros hn, Nat.ofDigitChars_replicate_zero, mul_comm]

/-- A string of digits without a leading zero is the one that its number is written with. -/
theorem toDigits_ofDigitChars {cs : List Char} (h : IsDigits cs) (hhead : cs.head? ≠ some '0') :
    Nat.toDigits 10 (Nat.ofDigitChars 10 cs 0) = cs := by
  cases cs with
  | nil => exact absurd rfl h.ne_nil
  | cons c cs =>
    have hc := h.isDigit c (by simp)
    have hpos := digit_value_pos hc (by rintro rfl; exact hhead rfl)
    rw [Nat.ofDigitChars_cons, Nat.mul_zero, Nat.zero_add,
      ← toDigits_append (fun d hd => h.isDigit d (by simp [hd])) hpos, toDigits_digit_value hc,
      List.singleton_append]

end ExactCalculator
