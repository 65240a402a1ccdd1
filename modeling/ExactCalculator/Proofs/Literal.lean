import ExactCalculator.Decimal.Literal
import ExactCalculator.Proofs.Value
import Mathlib.Tactic.FieldSimp

/-!
# What a literal writes

`literalValue`: the digits before the point count ones, tens and so on, those after it tenths,
hundredths and so on. A literal is read as exactly this number (`ofLiteral?_exact`,
`parse_of_isLiteral`), and literals are the strings of digits and points with at most one point and
at least one digit (`isLiteral_iff`).
-/

namespace ExactCalculator

/-- The number that digits after a point write. -/
def fractionValue : List Char → ℚ
  | [] => 0
  | c :: cs => ((c.toNat - '0'.toNat : ℕ) + fractionValue cs) / 10

/-- The number that a literal writes. -/
def literalValue (cs : List Char) : ℚ :=
  (Nat.ofDigitChars 10 (cs.takeWhile (· != '.')) 0 : ℕ)
    + fractionValue ((cs.dropWhile (· != '.')).drop 1)

/-- Appending digits to a whole number is moving the point behind them. -/
theorem ofDigitChars_cast (cs : List Char) (n : ℕ) :
    (Nat.ofDigitChars 10 cs n : ℚ) = (n + fractionValue cs) * 10 ^ cs.length := by
  induction cs generalizing n with
  | nil => simp [fractionValue]
  | cons c cs ih =>
    rw [Nat.ofDigitChars_cons, ih, fractionValue, List.length_cons, pow_succ]
    push_cast
    ring

/-- A literal consists of digits on either side of its point, and of one at least. -/
theorem splitLiteral_eq_some_iff {cs whole fraction : List Char} :
    splitLiteral cs = some (whole, fraction) ↔
      cs.takeWhile (· != '.') = whole ∧ (cs.dropWhile (· != '.')).drop 1 = fraction ∧
        (∀ c ∈ whole ++ fraction, c.isDigit = true) ∧ whole ++ fraction ≠ [] := by
  rw [splitLiteral]
  constructor
  · intro h
    split at h
    · next hcheck =>
      cases h
      simp only [Bool.and_eq_true, List.all_eq_true, Bool.not_eq_true', Bool.and_eq_false_iff,
        List.isEmpty_eq_false_iff] at hcheck
      obtain ⟨⟨hwhole, hfraction⟩, hne⟩ := hcheck
      refine ⟨rfl, rfl, ?_, ?_⟩
      · exact fun c hc => (List.mem_append.1 hc).elim (hwhole c) (hfraction c)
      · rwa [ne_eq, List.append_eq_nil_iff, not_and_or]
    · cases h
  · rintro ⟨rfl, rfl, hdigits, hne⟩
    rw [ne_eq, List.append_eq_nil_iff, not_and_or] at hne
    rw [if_pos]
    simp only [Bool.and_eq_true, List.all_eq_true, Bool.not_eq_true', Bool.and_eq_false_iff,
      List.isEmpty_eq_false_iff]
    exact ⟨⟨fun c hc => hdigits c (List.mem_append_left _ hc),
      fun c hc => hdigits c (List.mem_append_right _ hc)⟩, hne⟩

/-! ## Which strings are literals -/

theorem ne_point_of_isDigit {c : Char} (h : c.isDigit = true) : (c != '.') = true := by
  rw [bne_iff_ne]
  rintro rfl
  cases h

/-- What stands on either side of the first point is the string without this point. -/
theorem whole_append_fraction (cs : List Char) :
    cs.takeWhile (· != '.') ++ (cs.dropWhile (· != '.')).drop 1 = cs.erase '.' := by
  induction cs with
  | nil => rfl
  | cons c cs ih =>
    by_cases hc : c = '.'
    · subst hc
      rw [List.erase_cons_head]
      simp
    · rw [List.erase_cons_tail (by simpa using hc), ← ih]
      simp [hc]

theorem isLiteral_iff_erase {cs : List Char} :
    isLiteral cs = true ↔ (∀ c ∈ cs.erase '.', c.isDigit = true) ∧ cs.erase '.' ≠ [] := by
  rw [isLiteral, Option.isSome_iff_exists, Prod.exists]
  simp only [splitLiteral_eq_some_iff, ← whole_append_fraction]
  constructor
  · rintro ⟨_, _, rfl, rfl, h⟩
    exact h
  · exact fun h => ⟨_, _, rfl, rfl, h⟩

theorem isLiteral_iff {cs : List Char} :
    isLiteral cs = true ↔ (∀ c ∈ cs, c.isDigit = true ∨ c = '.') ∧ cs.count '.' ≤ 1 ∧
      ∃ c ∈ cs, c.isDigit = true := by
  have hcount := List.count_erase_self (a := '.') (l := cs)
  rw [isLiteral_iff_erase]
  constructor
  · rintro ⟨hdigits, hne⟩
    have hpoint : '.' ∉ cs.erase '.' :=
      fun h => bne_iff_ne.1 (ne_point_of_isDigit (hdigits _ h)) rfl
    rw [List.count_eq_zero.2 hpoint] at hcount
    obtain ⟨d, hd⟩ := List.exists_mem_of_ne_nil _ hne
    refine ⟨?_, by omega, d, List.mem_of_mem_erase hd, hdigits d hd⟩
    intro c hc
    by_cases hcp : c = '.'
    · exact Or.inr hcp
    · exact Or.inl (hdigits c ((List.mem_erase_of_ne hcp).2 hc))
  · rintro ⟨hchars, hle, d, hd, hdigit⟩
    have hpoint : '.' ∉ cs.erase '.' := List.count_eq_zero.1 (by omega)
    have hdp := bne_iff_ne.1 (ne_point_of_isDigit hdigit)
    refine ⟨?_, List.ne_nil_of_mem ((List.mem_erase_of_ne hdp).2 hd)⟩
    intro c hc
    refine (hchars c (List.mem_of_mem_erase hc)).resolve_right ?_
    rintro rfl
    exact hpoint hc

namespace Decimal

theorem ofLiteral?_exact {cs : List Char} {d : Decimal} (h : ofLiteral? cs = some d) :
    d.value = literalValue cs ∧ d.IsNormal := by
  obtain ⟨⟨whole, fraction⟩, hsplit, rfl⟩ := Option.map_eq_some_iff.1 h
  refine ⟨?_, isNormal_normalize _ _⟩
  obtain ⟨hwhole, hfraction, -, -⟩ := splitLiteral_eq_some_iff.1 hsplit
  have hpos : (10 : ℚ) ^ fraction.length ≠ 0 := by positivity
  rw [value_normalize, Int.cast_natCast, Nat.ofDigitChars_append, ofDigitChars_cast fraction,
    zpow_neg, zpow_natCast, mul_inv_cancel_right₀ hpos, literalValue, hwhole, hfraction]

theorem parse_of_isLiteral {literal : String} (h : isLiteral literal.toList = true) :
    ∃ d, parse literal = .ok d ∧ d.value = literalValue literal.toList ∧ d.IsNormal := by
  obtain ⟨parts, hparts⟩ := Option.isSome_iff_exists.1 h
  have hsome : ∃ d, ofLiteral? literal.toList = some d := by
    rw [ofLiteral?, hparts]
    exact ⟨_, rfl⟩
  obtain ⟨d, hd⟩ := hsome
  refine ⟨d, ?_, ofLiteral?_exact hd⟩
  rw [parse, hd]

theorem parse_eq_ok_iff {literal : String} {d : Decimal} :
    parse literal = .ok d ↔ ofLiteral? literal.toList = some d := by
  rw [parse]
  cases ofLiteral? literal.toList <;> simp

theorem isLiteral_of_parse {literal : String} {d : Decimal} (h : parse literal = .ok d) :
    isLiteral literal.toList = true := by
  obtain ⟨parts, hparts, -⟩ := Option.map_eq_some_iff.1 (parse_eq_ok_iff.1 h)
  exact Option.isSome_iff_exists.2 ⟨parts, hparts⟩

/-- What is no literal is refused with the text itself. -/
theorem parse_eq_error_iff {literal : String} {err : EvalError} :
    parse literal = .error err ↔
      isLiteral literal.toList = false ∧ err = .malformedNumber literal := by
  rw [parse, ofLiteral?, isLiteral]
  cases splitLiteral literal.toList with
  | none => simp [eq_comm]
  | some parts => simp

end Decimal

end ExactCalculator
