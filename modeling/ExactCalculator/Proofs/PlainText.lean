import ExactCalculator.Decimal.Plain
import ExactCalculator.Proofs.DigitString
import ExactCalculator.Proofs.NormalForm
import Mathlib.Data.List.TakeWhile

/-!
# Plain text, written and read back

The texts that decimals in normal form are written with are described without the printer: zero or
digits without a leading zero, perhaps a point and digits that do not end in zero (`IsMagnitude`),
and before it perhaps a minus sign, but not before a zero (`IsCanonical`). Printing and reading are
inverse to each other on them:

* `Decimal.isMagnitude_plainMagnitude`, `Decimal.ofLiteral?_plainMagnitude`: what is written is of
  this form and is read as the number that was written;
* `Decimal.exists_plainMagnitude_eq`: every text of this form is written for some number;
* `plain_text_inverse`: the two together, with signs.
-/

namespace ExactCalculator

/-! ## Canonical texts -/

/-- Zero, or digits without a leading zero. -/
def IsWhole (cs : List Char) : Prop := cs = ['0'] ∨ IsDigits cs ∧ cs.head? ≠ some '0'

/-- Digits of which the last is not zero. -/
def IsFraction (cs : List Char) : Prop := IsDigits cs ∧ cs.getLast? ≠ some '0'

inductive IsMagnitude : List Char → Prop
  | whole {cs : List Char} : IsWhole cs → IsMagnitude cs
  | point {whole fraction : List Char} :
      IsWhole whole → IsFraction fraction → IsMagnitude (whole ++ '.' :: fraction)

inductive IsCanonical : List Char → Prop
  | magnitude {cs : List Char} : IsMagnitude cs → IsCanonical cs
  | negative {cs : List Char} : IsMagnitude cs → cs ≠ ['0'] → IsCanonical ('-' :: cs)

/-- The number that a literal writes, or the opposite one after a minus sign. -/
def textValue : List Char → ℚ
  | '-' :: cs => -literalValue cs
  | cs => literalValue cs

theorem IsWhole.isDigits {cs : List Char} (h : IsWhole cs) : IsDigits cs := by
  rcases h with rfl | ⟨h, -⟩
  · exact ⟨by simp, by simp⟩
  · exact h

theorem isWhole_toDigits (n : ℕ) : IsWhole (Nat.toDigits 10 n) := by
  by_cases hn : n = 0
  · subst hn
    exact Or.inl (Nat.toDigits_zero 10)
  · exact Or.inr ⟨isDigits_toDigits n, head?_toDigits_ne_zero hn⟩

/-! ## Reading digits and a point -/

theorem splitLiteral_whole {cs : List Char} (h : IsDigits cs) :
    splitLiteral cs = some (cs, []) := by
  have hpoint : ∀ c ∈ cs, (c != '.') = true := fun c hc => ne_point_of_isDigit (h.isDigit c hc)
  have hdrop : cs.dropWhile (· != '.') = [] := List.dropWhile_eq_nil_iff.2 hpoint
  rw [splitLiteral_eq_some_iff, List.append_nil]
  exact ⟨List.takeWhile_eq_self_iff.2 hpoint, by rw [hdrop]; rfl, h.isDigit, h.ne_nil⟩

theorem splitLiteral_point {whole fraction : List Char} (hw : IsDigits whole)
    (hf : IsDigits fraction) :
    splitLiteral (whole ++ '.' :: fraction) = some (whole, fraction) := by
  have hpoint : ∀ c ∈ whole, (c != '.') = true :=
    fun c hc => ne_point_of_isDigit (hw.isDigit c hc)
  rw [splitLiteral_eq_some_iff, List.takeWhile_append_of_pos hpoint,
    List.dropWhile_append_of_pos hpoint]
  exact ⟨by simp, by simp, (hw.append hf).isDigit, (hw.append hf).ne_nil⟩

namespace Decimal

/-! ## The three layouts -/

theorem plainMagnitude_of_nonneg {n : ℕ} {e : ℤ} (h : (⟨n, e⟩ : Decimal).IsNormal)
    (he : 0 ≤ e) : plainMagnitude n e = Nat.toDigits 10 (n * 10 ^ e.toNat) := by
  rw [plainMagnitude]
  simp only [he, ↓reduceIte]
  by_cases hn : n = 0
  · subst hn
    obtain rfl : e = 0 := (h.resolve_right (by simp)).2
    rfl
  · rw [toDigits_mul_pow (Nat.pos_of_ne_zero hn)]

/-- The digits of `n`, perhaps after zeros, with a point in front of the last `places` digits. -/
structure PointBefore (places n : ℕ) (whole fraction : List Char) : Prop where
  isWhole : IsWhole whole
  isDigits : IsDigits fraction
  length_eq : fraction.length = places
  getLast?_eq : fraction.getLast? = (Nat.toDigits 10 n).getLast?
  number_eq : Nat.ofDigitChars 10 (whole ++ fraction) 0 = n

theorem pointBefore_inside {n places : ℕ} (hn : n ≠ 0) (hpos : 0 < places)
    (hlt : places < digitCount n) :
    PointBefore places n ((Nat.toDigits 10 n).take (digitCount n - places))
      ((Nat.toDigits 10 n).drop (digitCount n - places)) := by
  have hdigits := isDigits_toDigits n
  rw [digitCount] at hlt ⊢
  refine ⟨Or.inr ⟨⟨?_, ?_⟩, ?_⟩, ⟨?_, ?_⟩, ?_, ?_, ?_⟩
  · rw [ne_eq, List.take_eq_nil_iff]
    rintro (h0 | h0)
    · omega
    · exact hdigits.ne_nil h0
  · exact fun c hc => hdigits.isDigit c (List.mem_of_mem_take hc)
  · rw [List.head?_take, if_neg (by omega)]
    exact head?_toDigits_ne_zero hn
  · rw [ne_eq, List.drop_eq_nil_iff]
    omega
  · exact fun c hc => hdigits.isDigit c (List.mem_of_mem_drop hc)
  · rw [List.length_drop]
    omega
  · rw [List.getLast?_drop, if_neg (by omega)]
  · rw [List.take_append_drop, Nat.ofDigitChars_ten_toDigits]

theorem pointBefore_zeros {n places : ℕ} (hle : digitCount n ≤ places) :
    PointBefore places n ['0']
      (List.replicate (places - digitCount n) '0' ++ Nat.toDigits 10 n) := by
  have hdigits := isDigits_toDigits n
  rw [digitCount] at hle ⊢
  refine ⟨Or.inl rfl, ⟨by simp [hdigits.ne_nil], ?_⟩, ?_, ?_, ?_⟩
  · intro c hc
    rcases List.mem_append.1 hc with hc | hc
    · rw [List.eq_of_mem_replicate hc]
      rfl
    · exact hdigits.isDigit c hc
  · rw [List.length_append, List.length_replicate]
    omega
  · rw [List.getLast?_append_of_ne_nil _ hdigits.ne_nil]
  · rw [← List.append_assoc, List.singleton_append, ← List.replicate_succ,
      Nat.ofDigitChars_append, Nat.ofDigitChars_replicate_zero, Nat.mul_zero,
      Nat.ofDigitChars_ten_toDigits]

theorem plainMagnitude_of_neg {n : ℕ} (hn : n ≠ 0) {e : ℤ} (he : e < 0) :
    ∃ whole fraction, plainMagnitude n e = whole ++ '.' :: fraction ∧
      PointBefore e.natAbs n whole fraction := by
  rw [plainMagnitude]
  simp only [not_le.2 he, ↓reduceIte]
  split
  · next hlt => exact ⟨_, _, rfl, pointBefore_inside hn (by omega) hlt⟩
  · next hge => exact ⟨_, _, rfl, pointBefore_zeros (not_lt.1 hge)⟩

/-! ## Written and read -/

theorem ofLiteral?_whole {cs : List Char} (h : IsDigits cs) :
    ofLiteral? cs = some (normalize (Nat.ofDigitChars 10 cs 0) 0) := by
  rw [ofLiteral?, splitLiteral_whole h]
  simp

theorem ofLiteral?_point {whole fraction : List Char} (hw : IsDigits whole)
    (hf : IsDigits fraction) :
    ofLiteral? (whole ++ '.' :: fraction) =
      some (normalize (Nat.ofDigitChars 10 (whole ++ fraction) 0) (-(fraction.length : ℤ))) := by
  rw [ofLiteral?, splitLiteral_point hw hf]
  rfl

theorem mod_ten_ne_zero_of_neg {n : ℕ} {e : ℤ} (h : (⟨n, e⟩ : Decimal).IsNormal) (he : e < 0) :
    n % 10 ≠ 0 := by
  rcases h with ⟨-, h0⟩ | hmod
  · simp only at h0
    omega
  · simp only at hmod
    omega

theorem isMagnitude_plainMagnitude {n : ℕ} {e : ℤ} (h : (⟨n, e⟩ : Decimal).IsNormal) :
    IsMagnitude (plainMagnitude n e) := by
  rcases lt_or_ge e 0 with he | he
  · have hmod := mod_ten_ne_zero_of_neg h he
    obtain ⟨whole, fraction, heq, hpoint⟩ :=
      plainMagnitude_of_neg (n := n) (by rintro rfl; exact hmod rfl) he
    rw [heq]
    refine .point hpoint.isWhole ⟨hpoint.isDigits, ?_⟩
    rwa [hpoint.getLast?_eq, getLast?_toDigits_ne_zero_iff]
  · rw [plainMagnitude_of_nonneg h he]
    exact .whole (isWhole_toDigits _)

theorem ofLiteral?_plainMagnitude {n : ℕ} {e : ℤ} (h : (⟨n, e⟩ : Decimal).IsNormal) :
    ofLiteral? (plainMagnitude n e) = some ⟨n, e⟩ := by
  rcases lt_or_ge e 0 with he | he
  · have hmod := mod_ten_ne_zero_of_neg h he
    obtain ⟨whole, fraction, heq, hpoint⟩ :=
      plainMagnitude_of_neg (n := n) (by rintro rfl; exact hmod rfl) he
    have hexp : -(fraction.length : ℤ) = e := by
      have := hpoint.length_eq
      omega
    rw [heq, ofLiteral?_point hpoint.isWhole.isDigits hpoint.isDigits, hpoint.number_eq, hexp,
      normalize_eq_self h]
  · have hvalue : ((n * 10 ^ e.toNat : ℕ) : ℚ) * 10 ^ (0 : ℤ) = n * 10 ^ e := by
      obtain ⟨k, rfl⟩ := Int.eq_ofNat_of_zero_le he
      simp
    rw [plainMagnitude_of_nonneg h he, ofLiteral?_whole (isDigits_toDigits _),
      Nat.ofDigitChars_ten_toDigits]
    refine congrArg some (eq_of_value_eq (isNormal_normalize _ _) h ?_)
    rw [value_normalize, Int.cast_natCast, hvalue]
    rfl

/-! ## Every canonical text is written -/

theorem exists_plainMagnitude_whole {cs : List Char} (h : IsWhole cs) :
    ∃ (n : ℕ) (e : ℤ), (⟨n, e⟩ : Decimal).IsNormal ∧ plainMagnitude n e = cs := by
  rcases h with rfl | ⟨hdigits, hhead⟩
  · exact ⟨0, 0, Or.inl ⟨rfl, rfl⟩, rfl⟩
  · have hwritten := toDigits_ofDigitChars hdigits hhead
    have hne : Nat.ofDigitChars 10 cs 0 ≠ 0 := by
      intro h0
      rw [h0, Nat.toDigits_zero] at hwritten
      exact hhead (by rw [← hwritten]; rfl)
    generalize Nat.ofDigitChars 10 cs 0 = n at hwritten hne
    have hmod := stripZeros_mod_ten hne
    have hnormal : (⟨(stripZeros n).1, (stripZeros n).2⟩ : Decimal).IsNormal := by
      refine Or.inr ?_
      simp only
      omega
    refine ⟨_, _, hnormal, ?_⟩
    have hmul : (stripZeros n).1 * 10 ^ (stripZeros n).2 = n := stripZeros_mul n
    rw [plainMagnitude_of_nonneg hnormal (by simp), Int.toNat_natCast, hmul, hwritten]

/-- A number below one: its digits are those behind the zeros that follow the point. -/
theorem plainMagnitude_zero_point {fraction : List Char} (h : IsFraction fraction) :
    plainMagnitude (Nat.ofDigitChars 10 fraction 0) (-(fraction.length : ℤ)) =
      '0' :: '.' :: fraction := by
  obtain ⟨k, digits, rfl, hdigits, hhead⟩ := exists_zeros_append h.1 h.2
  have hlength : 0 < digits.length := List.length_pos_iff.2 hdigits.ne_nil
  rw [Nat.ofDigitChars_append, Nat.ofDigitChars_replicate_zero, Nat.mul_zero, plainMagnitude,
    toDigits_ofDigitChars hdigits hhead]
  simp only [List.length_append, List.length_replicate, Int.natAbs_neg, Int.natAbs_natCast]
  rw [if_neg (by omega), if_neg (by omega), Nat.add_sub_cancel]

/-- A number with digits before the point: these and the ones after it are its digits. -/
theorem plainMagnitude_point {whole fraction : List Char} (hw : IsDigits whole)
    (hhead : whole.head? ≠ some '0') (hf : IsDigits fraction) :
    plainMagnitude (Nat.ofDigitChars 10 (whole ++ fraction) 0) (-(fraction.length : ℤ)) =
      whole ++ '.' :: fraction := by
  have hhead' : (whole ++ fraction).head? ≠ some '0' := by
    cases whole with
    | nil => exact absurd rfl hw.ne_nil
    | cons c cs => exact hhead
  have hlength : 0 < whole.length := List.length_pos_iff.2 hw.ne_nil
  have hlength' : 0 < fraction.length := List.length_pos_iff.2 hf.ne_nil
  rw [plainMagnitude, toDigits_ofDigitChars (hw.append hf) hhead']
  simp only [List.length_append, Int.natAbs_neg, Int.natAbs_natCast]
  rw [if_neg (by omega), if_pos (by omega), Nat.add_sub_cancel, List.take_left' rfl,
    List.drop_left' rfl]

theorem exists_plainMagnitude_eq {cs : List Char} (h : IsMagnitude cs) :
    ∃ (n : ℕ) (e : ℤ), (⟨n, e⟩ : Decimal).IsNormal ∧ plainMagnitude n e = cs := by
  cases h with
  | whole hw => exact exists_plainMagnitude_whole hw
  | @point whole fraction hw hf =>
    have hwritten : plainMagnitude (Nat.ofDigitChars 10 (whole ++ fraction) 0)
        (-(fraction.length : ℤ)) = whole ++ '.' :: fraction := by
      rcases hw with rfl | ⟨hdigits, hhead⟩
      · exact plainMagnitude_zero_point hf
      · exact plainMagnitude_point hdigits hhead hf.1
    have hdigits := hw.isDigits.append hf.1
    have hlast : (whole ++ fraction).getLast? ≠ some '0' := by
      rw [List.getLast?_append_of_ne_nil _ hf.1.ne_nil]
      exact hf.2
    have hmod := ofDigitChars_mod_ten_ne_zero hdigits.isDigit hdigits.ne_nil hlast
    refine ⟨_, _, Or.inr ?_, hwritten⟩
    simp only
    omega

/-! ## Signs -/

theorem isNormal_natAbs {d : Decimal} (h : d.IsNormal) :
    (⟨d.coeff.natAbs, d.exp⟩ : Decimal).IsNormal := by
  rcases h with ⟨hc, he⟩ | hc
  · exact Or.inl ⟨by rw [hc]; rfl, he⟩
  · refine Or.inr ?_
    simp only
    omega

theorem natAbs_of_nonneg {d : Decimal} (h : d.isNegative = false) :
    (⟨d.coeff.natAbs, d.exp⟩ : Decimal) = d := by
  have hc : ¬ d.coeff < 0 := by simpa [isNegative] using h
  have habs : (d.coeff.natAbs : ℤ) = d.coeff := by omega
  rw [habs]

theorem natAbs_of_neg {d : Decimal} (h : d.isNegative = true) :
    (⟨d.coeff.natAbs, d.exp⟩ : Decimal) = d.neg := by
  have hc : d.coeff < 0 := by simpa [isNegative] using h
  have habs : (d.coeff.natAbs : ℤ) = -d.coeff := by omega
  rw [habs, neg]

theorem toText_of_nonneg {d : Decimal} (h : d.isNegative = false) :
    d.toText = String.ofList (plainMagnitude d.coeff.natAbs d.exp) := by
  simp [toText, plainChars, h]

theorem toText_of_neg {d : Decimal} (h : d.isNegative = true) :
    d.toText = String.ofList ('-' :: plainMagnitude d.coeff.natAbs d.exp) := by
  simp [toText, plainChars, h]

/-- What is written after the sign is read as the magnitude. -/
theorem parse_plainMagnitude {d : Decimal} (h : d.IsNormal) :
    parse (String.ofList (plainMagnitude d.coeff.natAbs d.exp)) = .ok ⟨d.coeff.natAbs, d.exp⟩ := by
  rw [parse_eq_ok_iff, String.toList_ofList]
  exact ofLiteral?_plainMagnitude (isNormal_natAbs h)

theorem parse_toText {d : Decimal} (h : d.IsNormal) (h0 : d.isNegative = false) :
    parse d.toText = .ok d := by
  rw [toText_of_nonneg h0, parse_plainMagnitude h, natAbs_of_nonneg h0]

end Decimal

open Decimal

/-! ## Canonical texts and the numbers they write -/

theorem IsMagnitude.exists_digit {cs : List Char} (h : IsMagnitude cs) :
    ∃ c ds, cs = c :: ds ∧ c.isDigit = true := by
  cases h with
  | whole hw => exact hw.isDigits.exists_cons
  | point hw hf =>
    obtain ⟨c, es, rfl, hc⟩ := hw.isDigits.exists_cons
    exact ⟨c, _, rfl, hc⟩

/-- A text that starts with a digit has no sign. -/
theorem IsMagnitude.textValue_eq {cs : List Char} (h : IsMagnitude cs) :
    textValue cs = literalValue cs := by
  obtain ⟨c, ds, rfl, hc⟩ := h.exists_digit
  unfold textValue
  split
  · next heq =>
    obtain ⟨rfl, -⟩ := List.cons.inj heq
    cases hc
  · rfl

theorem literalValue_plainMagnitude {d : Decimal} (h : d.IsNormal) :
    literalValue (plainMagnitude d.coeff.natAbs d.exp) =
      (⟨d.coeff.natAbs, d.exp⟩ : Decimal).value :=
  (ofLiteral?_exact (ofLiteral?_plainMagnitude (isNormal_natAbs h))).1.symm

theorem Decimal.isCanonical_toText {d : Decimal} (h : d.IsNormal) :
    IsCanonical d.toText.toList := by
  have hmagnitude := isMagnitude_plainMagnitude (isNormal_natAbs h)
  cases hsign : d.isNegative with
  | false =>
    rw [toText_of_nonneg hsign, String.toList_ofList]
    exact .magnitude hmagnitude
  | true =>
    rw [toText_of_neg hsign, String.toList_ofList]
    refine .negative hmagnitude ?_
    intro hzero
    have hread := ofLiteral?_plainMagnitude (isNormal_natAbs h)
    rw [hzero, show ofLiteral? ['0'] = some zero by decide +kernel, natAbs_of_neg hsign] at hread
    have hcoeff : (0 : ℤ) = -d.coeff := congrArg coeff (Option.some.inj hread)
    rw [isNegative, decide_eq_true_eq] at hsign
    omega

theorem Decimal.textValue_toText {d : Decimal} (h : d.IsNormal) :
    textValue d.toText.toList = d.value := by
  cases hsign : d.isNegative with
  | false =>
    rw [toText_of_nonneg hsign, String.toList_ofList,
      (isMagnitude_plainMagnitude (isNormal_natAbs h)).textValue_eq,
      literalValue_plainMagnitude h, natAbs_of_nonneg hsign]
  | true =>
    rw [toText_of_neg hsign, String.toList_ofList, textValue, literalValue_plainMagnitude h,
      natAbs_of_neg hsign, value_neg, neg_neg]

/-- A canonical text without a sign is read as the number that is written with it. -/
theorem IsMagnitude.exists_toText_eq {text : String} (h : IsMagnitude text.toList) :
    ∃ d, Decimal.parse text = .ok d ∧ d.IsNormal ∧ d.isNegative = false ∧ d.toText = text := by
  obtain ⟨n, e, hnormal, hwritten⟩ := exists_plainMagnitude_eq h
  have hsign : (⟨n, e⟩ : Decimal).isNegative = false := by simp [isNegative]
  have htext : (⟨n, e⟩ : Decimal).toText = text := by
    rw [toText_of_nonneg hsign, Int.natAbs_natCast, hwritten, String.ofList_toList]
  exact ⟨⟨n, e⟩, by rw [← htext]; exact parse_toText hnormal hsign, hnormal, hsign, htext⟩

/-- Printing and reading are inverse to each other: a decimal in normal form is written as a
canonical text that denotes it and is read back, after the sign if there is one; a canonical text
without a sign is the one that the number read from it is written with; and different numbers are
written differently. -/
theorem plain_text_inverse :
    (∀ d : Decimal, d.IsNormal → IsCanonical d.toText.toList ∧
      textValue d.toText.toList = d.value ∧
      (d.isNegative = false → Decimal.parse d.toText = .ok d) ∧
      (d.isNegative = true → ∃ magnitude, d.toText = "-" ++ magnitude ∧
        Decimal.parse magnitude = .ok d.neg)) ∧
    (∀ text : String, IsCanonical text.toList → '-' ∉ text.toList →
      ∃ d, Decimal.parse text = .ok d ∧ d.IsNormal ∧ d.isNegative = false ∧ d.toText = text) ∧
    ∀ a b : Decimal, a.IsNormal → b.IsNormal → a.toText = b.toText → a = b := by
  refine ⟨?_, ?_, ?_⟩
  · intro d h
    refine ⟨isCanonical_toText h, textValue_toText h, parse_toText h, ?_⟩
    intro hsign
    refine ⟨String.ofList (plainMagnitude d.coeff.natAbs d.exp), ?_, ?_⟩
    · rw [toText_of_neg hsign, ← List.singleton_append, String.ofList_append]
    · rw [parse_plainMagnitude h, natAbs_of_neg hsign]
  · intro text h hsign
    generalize hcs : text.toList = cs at h hsign
    cases h with
    | magnitude hmagnitude =>
      rw [← hcs] at hmagnitude
      exact hmagnitude.exists_toText_eq
    | negative => simp at hsign
  · intro a b ha hb h
    refine eq_of_value_eq ha hb ?_
    rw [← textValue_toText ha, ← textValue_toText hb, h]

/-- Below one there is a zero before the point, and the zeros after it are written out. -/
theorem negative_fraction_read_back :
    (⟨-25, -4⟩ : Decimal).IsNormal ∧ IsCanonical (⟨-25, -4⟩ : Decimal).toText.toList ∧
      (∃ magnitude, (⟨-25, -4⟩ : Decimal).toText = "-" ++ magnitude ∧
        Decimal.parse magnitude = .ok ⟨25, -4⟩) ∧
      ∃ d, Decimal.parse "0.0025" = .ok d ∧ d.toText = "0.0025" := by
  have hnormal : (⟨-25, -4⟩ : Decimal).IsNormal := by decide
  have htext : IsCanonical "0.0025".toList := by
    have hfraction : IsFraction ['0', '0', '2', '5'] := ⟨⟨by simp, by simp⟩, by decide⟩
    exact .magnitude (@IsMagnitude.point ['0'] _ (Or.inl rfl) hfraction)
  obtain ⟨hwritten, hread, -⟩ := plain_text_inverse
  obtain ⟨hcanonical, -, -, hneg⟩ := hwritten _ hnormal
  obtain ⟨d, hd, -, -, hback⟩ := hread "0.0025" htext (by decide)
  exact ⟨hnormal, hcanonical, hneg rfl, d, hd, hback⟩

end ExactCalculator
