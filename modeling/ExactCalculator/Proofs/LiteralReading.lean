import ExactCalculator.Proofs.PlainText
import Mathlib.Data.List.DropRight

/-!
# Literals are read exactly

The digits of a literal can be read with their zeros cut off: those at the end go to the exponent,
where they count against the places after the point, and those in front are dropped
(`Decimal.ofTrimmed`). Wherever the zeros and the point stand, the number is the one that is written
(`value_ofTrimmed`) and in normal form, so this is how the literal is read (`parse_eq_ofTrimmed`).
Main statement: `literals_read_exactly`.
-/

namespace ExactCalculator

/-! ## Zeros at the ends of a string of digits -/

/-- The zeros at the end multiply by a power of ten. -/
theorem ofDigitChars_rdropWhile_zero (cs : List Char) :
    Nat.ofDigitChars 10 (cs.rdropWhile (· == '0')) 0 *
        10 ^ (cs.length - (cs.rdropWhile (· == '0')).length) = Nat.ofDigitChars 10 cs 0 := by
  have hsplit := List.rdropWhile_append_rtakeWhile (p := (· == '0')) (l := cs)
  have hzeros : cs.rtakeWhile (· == '0') =
      List.replicate (cs.rtakeWhile (· == '0')).length '0' :=
    List.eq_replicate_of_mem fun c hc => by simpa using List.mem_rtakeWhile_imp hc
  have hlength : cs.length - (cs.rdropWhile (· == '0')).length =
      (cs.rtakeWhile (· == '0')).length := by
    have := congrArg List.length hsplit
    rw [List.length_append] at this
    omega
  rw [hlength, mul_comm, ← Nat.ofDigitChars_replicate_zero, ← hzeros, ← Nat.ofDigitChars_append,
    hsplit]

/-- The zeros in front count for nothing. -/
theorem ofDigitChars_dropWhile_zero (cs : List Char) :
    Nat.ofDigitChars 10 (cs.dropWhile (· == '0')) 0 = Nat.ofDigitChars 10 cs 0 := by
  induction cs with
  | nil => rfl
  | cons c cs ih =>
    by_cases hc : c = '0'
    · subst hc
      rw [List.dropWhile_cons_of_pos (by simp), ih, Nat.ofDigitChars_cons, Nat.mul_zero,
        Nat.zero_add, Nat.sub_self]
    · rw [List.dropWhile_cons_of_neg (by simpa using hc)]

/-- What the zeros in front leave ends like the whole string. -/
theorem getLast?_dropWhile {p : Char → Bool} {cs : List Char} (h : cs.dropWhile p ≠ []) :
    (cs.dropWhile p).getLast? = cs.getLast? := by
  obtain ⟨front, hfront⟩ := List.dropWhile_suffix (l := cs) p
  conv_rhs => rw [← hfront]
  rw [List.getLast?_append_of_ne_nil _ h]

theorem getLast?_rdropWhile_zero (cs : List Char) :
    (cs.rdropWhile (· == '0')).getLast? ≠ some '0' := by
  by_cases hnil : cs.rdropWhile (· == '0') = []
  · rw [hnil]
    simp
  · have hlast := List.rdropWhile_last_not (· == '0') cs hnil
    rw [List.getLast?_eq_some_getLast hnil, ne_eq, Option.some_inj]
    simpa using hlast

namespace Decimal

/-! ## Reading without the zeros -/

/-- The number of digits of which the last `places` stand after the point. The zeros at the end
change the exponent, and the coefficient is read from what is left of the zeros in front. -/
def ofTrimmed (digits : List Char) (places : ℕ) : Decimal :=
  let kept := digits.rdropWhile (· == '0')
  let significant := kept.dropWhile (· == '0')
  if significant = [] then zero
  else ⟨Nat.ofDigitChars 10 significant 0, (digits.length - kept.length : ℕ) - (places : ℤ)⟩

theorem value_ofTrimmed (digits : List Char) (places : ℕ) :
    (ofTrimmed digits places).value = Nat.ofDigitChars 10 digits 0 * 10 ^ (-places : ℤ) := by
  rw [← ofDigitChars_rdropWhile_zero, ofTrimmed]
  generalize digits.rdropWhile (· == '0') = kept
  rw [← ofDigitChars_dropWhile_zero kept]
  split
  · next hnil =>
    rw [hnil]
    simp [zero, value]
  · rw [value, sub_eq_add_neg, ten_zpow_add, zpow_natCast]
    push_cast
    ring

theorem isNormal_ofTrimmed {digits : List Char} (h : ∀ c ∈ digits, c.isDigit = true)
    (places : ℕ) : (ofTrimmed digits places).IsNormal := by
  have hkept := List.rdropWhile_prefix (· == '0') digits
  have hlast := getLast?_rdropWhile_zero digits
  rw [ofTrimmed]
  generalize digits.rdropWhile (· == '0') = kept at hkept hlast
  split
  · exact Or.inl ⟨rfl, rfl⟩
  · next hne =>
    have hdigit : ∀ c ∈ kept.dropWhile (· == '0'), c.isDigit = true :=
      fun c hc => h c (hkept.subset ((List.dropWhile_suffix _).subset hc))
    have hmod := ofDigitChars_mod_ten_ne_zero hdigit hne (by rwa [getLast?_dropWhile hne])
    refine Or.inr ?_
    simp only
    omega

/-- A literal is read from its digits, of which the ones after the point are counted. -/
theorem parse_eq_ofTrimmed {literal : String} {whole fraction : List Char}
    (h : splitLiteral literal.toList = some (whole, fraction)) :
    parse literal = .ok (ofTrimmed (whole ++ fraction) fraction.length) := by
  obtain ⟨-, -, hdigits, -⟩ := splitLiteral_eq_some_iff.1 h
  rw [parse_eq_ok_iff, ofLiteral?, h, Option.map_some, Option.some_inj]
  refine eq_of_value_eq (isNormal_normalize _ _) (isNormal_ofTrimmed hdigits _) ?_
  rw [value_normalize, value_ofTrimmed, Int.cast_natCast]

/-! ## Literals and numbers -/

theorem exists_parse_eq_ok_iff {literal : String} :
    (∃ d, parse literal = .ok d) ↔ isLiteral literal.toList = true := by
  constructor
  · rintro ⟨d, hd⟩
    exact isLiteral_of_parse hd
  · intro h
    obtain ⟨d, hd, -⟩ := parse_of_isLiteral h
    exact ⟨d, hd⟩

theorem value_of_parse {literal : String} {d : Decimal} (h : parse literal = .ok d) :
    d.value = literalValue literal.toList :=
  (ofLiteral?_exact (parse_eq_ok_iff.1 h)).1

/-- Equal numbers are read as equal decimals. -/
theorem eq_iff_literalValue_eq {s t : String} {d e : Decimal} (hd : parse s = .ok d)
    (he : parse t = .ok e) : d = e ↔ literalValue s.toList = literalValue t.toList := by
  rw [← value_of_parse hd, ← value_of_parse he]
  exact ⟨fun h => by rw [h], eq_of_value_eq (isNormal_of_parse hd) (isNormal_of_parse he)⟩

/-- The digits of a whole number are read as this number. -/
theorem parse_toString (n : ℕ) : parse (toString n) = .ok (ofInt n) := by
  rw [parse_eq_ok_iff, Nat.toString_eq_repr, Nat.toList_repr,
    ofLiteral?_whole (isDigits_toDigits n), Nat.ofDigitChars_ten_toDigits, ofInt]

end Decimal

open Decimal

/-- A text is read exactly when it consists of digits and at most one point, with one digit at
least, and refused with the text itself otherwise. What is read is the number that is written, also
when it is put together from the digits without their zeros; two literals are read as equal
decimals exactly when they write the same number, and a whole number is read from its digits. -/
theorem literals_read_exactly (s : String) :
    ((∃ d, parse s = .ok d) ↔ (∀ c ∈ s.toList, c.isDigit = true ∨ c = '.') ∧
      s.toList.count '.' ≤ 1 ∧ ∃ c ∈ s.toList, c.isDigit = true) ∧
    (∀ err, parse s = .error err → err = .malformedNumber s) ∧
    (∀ d, parse s = .ok d → d.value = literalValue s.toList ∧
      (∀ whole fraction, splitLiteral s.toList = some (whole, fraction) →
        d = ofTrimmed (whole ++ fraction) fraction.length) ∧
      ∀ t e, parse t = .ok e → (d = e ↔ literalValue s.toList = literalValue t.toList)) ∧
    ∀ n : ℕ, parse (toString n) = .ok (ofInt n) := by
  refine ⟨exists_parse_eq_ok_iff.trans isLiteral_iff, ?_, ?_, parse_toString⟩
  · intro err herr
    exact (parse_eq_error_iff.1 herr).2
  · intro d hd
    refine ⟨value_of_parse hd, ?_, fun t e he => eq_iff_literalValue_eq hd he⟩
    intro whole fraction hsplit
    rw [parse_eq_ofTrimmed hsplit, Except.ok.injEq] at hd
    exact hd.symm

/-- Zeros at both ends, and on both sides of the point, change nothing; a second point does. -/
theorem padded_literal_read :
    parse "0010.0500" = .ok ⟨1005, -2⟩ ∧ parse "10.05" = .ok ⟨1005, -2⟩ ∧
      (⟨1005, -2⟩ : Decimal) = ofTrimmed ['0', '0', '1', '0', '0', '5', '0', '0'] 4 ∧
      literalValue "0010.0500".toList = literalValue "10.05".toList ∧
      parse "1.2.3" = .error (.malformedNumber "1.2.3") := by
  have hpadded : parse "0010.0500" = .ok ⟨1005, -2⟩ := by decide +kernel
  have hshort : parse "10.05" = .ok ⟨1005, -2⟩ := by decide +kernel
  obtain ⟨-, htrimmed, hsame⟩ := (literals_read_exactly "0010.0500").2.2.1 _ hpadded
  have hsplit : splitLiteral "0010.0500".toList =
      some (['0', '0', '1', '0'], ['0', '5', '0', '0']) := by decide +kernel
  refine ⟨hpadded, hshort, htrimmed _ _ hsplit, (hsame _ _ hshort).1 rfl, ?_⟩
  cases herr : parse "1.2.3" with
  | ok d =>
    obtain ⟨-, hcount, -⟩ := (literals_read_exactly "1.2.3").1.1 ⟨d, herr⟩
    exact absurd hcount (by decide +kernel)
  | error err => rw [(literals_read_exactly "1.2.3").2.1 err herr]

end ExactCalculator
