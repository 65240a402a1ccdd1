import ExactCalculator.Proofs.Exponents.Operations
import ExactCalculator.Proofs.Exponents.Width
import ExactCalculator.Proofs.Evaluation

/-!
# Exponents and digit counts of an evaluation

Each value on the stack is charged to characters of the text: a literal to its own, a result to
those of its operands and its operator. A value that is charged to `m + 1` characters spans at most
`200 · m + 1` places (`Charged`). This leaves room for the 206 places that an operator may add to
those of its operands: joining two values frees 199 places, and the operator itself is worth 200.

For one token, what the calculator computes fits (`Calculator.fits_of_charged`) and the values stay
charged (`Calculator.charged_of_push`), hence also over a run (`Calculator.Reaches.charged`). Main
statement: `exponents_fit`.
-/

namespace ExactCalculator

open Decimal Token

/-! ## Charging values to characters -/

/-- The values are charged to at most `n` characters, each of them to at least one. -/
inductive Charged : List Decimal → ℕ → Prop
  | nil (n : ℕ) : Charged [] n
  | cons {v : Decimal} {vs : List Decimal} {m n : ℕ} :
      v.Spans (200 * m + 1) → Charged vs n → Charged (v :: vs) (m + 1 + n)

theorem Charged.mono {vs : List Decimal} {m n : ℕ} (h : Charged vs m) (hmn : m ≤ n) :
    Charged vs n := by
  induction h generalizing n with
  | nil => exact .nil n
  | @cons v vs k m hv _ ih =>
    obtain ⟨j, rfl⟩ := Nat.exists_eq_add_of_le hmn
    rw [Nat.add_assoc]
    exact .cons hv (ih (Nat.le_add_right _ _))

/-- One value is charged to no more characters than all together. -/
theorem Charged.spans {vs : List Decimal} {n : ℕ} (h : Charged vs n) :
    ∀ v ∈ vs, v.Spans (200 * n) := by
  induction h with
  | nil => simp
  | cons hv _ ih =>
    intro v hmem
    rcases List.mem_cons.1 hmem with rfl | hmem
    · exact hv.mono (by omega)
    · exact (ih v hmem).mono (by omega)

/-! ## One token -/

section Token

variable {p : Precision} {vs : List Decimal} {a b v : Decimal} {n : ℕ}

theorem Charged.literal {literal : String} (h : Charged vs n) (hv : parse literal = .ok v) :
    Charged (v :: vs) (n + literal.length) := by
  obtain ⟨hspans, hone⟩ := spans_of_parse hv
  obtain ⟨m, hm⟩ := Nat.exists_eq_add_of_le' hone
  have hcharged := h.cons (hspans.mono (show literal.length ≤ 200 * m + 1 by omega))
  exact hcharged.mono (by omega)

theorem Charged.negated (p : Precision) (h : Charged (v :: vs) n) (hmax : n + 1 ≤ 10000000) :
    RoundingFits p v.neg.coeff v.neg.exp false ∧ Charged (v.neg.rounded p :: vs) (n + 1) := by
  cases h with
  | @cons _ _ m k hv hvs =>
    obtain ⟨hfits, hspans⟩ := hv.neg_rounded (p := p) (w := 200 * (m + 1) + 1) (by omega)
      (by rw [maxSpan]; omega)
    exact ⟨hfits, (hvs.cons hspans).mono (by omega)⟩

theorem Charged.binary (p : Precision) (op : BinaryOperator) (h : Charged (b :: a :: vs) n)
    (hmax : n + 1 ≤ 10000000) :
    op.Fits p a b ∧ ∀ r, op.apply p a b = .ok r → Charged (r :: vs) (n + 1) := by
  cases h with
  | @cons _ _ m _ hb h =>
    cases h with
    | @cons _ _ l k ha hvs =>
      obtain ⟨hfits, hspans⟩ := op.apply_spans p ha hb (w := 200 * (l + m + 2) + 1) (by omega)
        (by rw [maxSpan]; omega)
      exact ⟨hfits, fun r hr => (hvs.cons (hspans r hr)).mono (by omega)⟩

end Token

namespace Calculator

/-- Whatever the calculator computes for the token fits. -/
def Fits (p : Precision) (c : Calculator) : Token → Prop
  | .number literal => LiteralFits literal
  | .operator (.sign .plus) => True
  | .operator (.sign .minus) =>
    ∀ v ∈ c.values.head?, RoundingFits p v.neg.coeff v.neg.exp false
  | .operator (.binary op) => ∀ a b rest, c.values = b :: a :: rest → op.Fits p a b
  | .opening | .closing => True

theorem fits_of_charged {p : Precision} {c : Calculator} {n : ℕ} (h : Charged c.values n)
    {token : Token} (hmax : n + token.width ≤ 10000000) : c.Fits p token := by
  match token with
  | .number literal =>
    rw [Token.width] at hmax
    exact literalFits (by rw [maxSpan]; omega)
  | .operator (.sign .plus) => trivial
  | .operator (.sign .minus) =>
    intro v hv
    obtain ⟨rest, hvalues⟩ := List.head?_eq_some_iff.1 hv
    rw [hvalues] at h
    exact (h.negated p hmax).1
  | .operator (.binary op) =>
    intro a b rest hvalues
    rw [hvalues] at h
    exact (h.binary p op hmax).1
  | .opening | .closing => trivial

theorem charged_of_push {p : Precision} {c next : Calculator} {n : ℕ} (h : Charged c.values n)
    {token : Token} (hmax : n + token.width ≤ 10000000) (hpush : c.push p token = .ok next) :
    Charged next.values (n + token.width) := by
  rcases push_ok_iff.1 hpush with ⟨literal, v, rfl, hv, rfl⟩ | ⟨s, v, rest, rfl, hvalues, rfl⟩ |
    ⟨op, a, b, rest, r, rfl, hvalues, hr, rfl⟩
  · exact h.literal hv
  · rw [hvalues] at h
    cases s with
    | plus => exact h.mono (Nat.le_add_right _ _)
    | minus => exact (h.negated p hmax).2
  · rw [hvalues] at h
    exact (h.binary p op hmax).2 r hr

/-! ## A run -/

theorem Reaches.charged {p : Precision} {tokens : List Token} {c : Calculator}
    (h : start.Reaches p tokens c) (hmax : totalWidth tokens ≤ 10000000) :
    Charged c.values (totalWidth tokens) := by
  induction h with
  | refl => exact .nil _
  | @push tokens token mid next _ hpush ih =>
    have hwidth : totalWidth (tokens ++ [token]) = totalWidth tokens + token.width := by
      rw [totalWidth_append]
      rfl
    rw [hwidth] at hmax ⊢
    exact charged_of_push (ih (by omega)) hmax hpush

end Calculator

/-- Wherever the evaluation of a text of at most ten million characters has come, whether or not it
will succeed, the exponents of all values are at most 200 times its length, and whatever the next
token makes it compute fits: the digits appended or dropped at once into 32 bits, the exponents into
64. -/
theorem exponents_fit {p : Precision} {text : String} (hlength : text.length ≤ 10000000)
    {c : Calculator} {rest : List Token} (h : Calculator.ReachesFrom p text c rest) :
    (∀ v ∈ c.values, |v.exp| ≤ 200 * text.length) ∧ ∀ token ∈ rest.head?, c.Fits p token := by
  obtain ⟨tokens, before, htokens, hrpn, hreaches⟩ := h
  have hwidth := totalWidth_le_length htokens hrpn
  rw [totalWidth_append] at hwidth
  have hcharged := hreaches.charged (by omega)
  constructor
  · intro v hv
    have hexp := (hcharged.spans v hv).abs_exp_le
    push_cast at hexp
    omega
  · intro token htoken
    obtain ⟨rest, rfl⟩ := List.head?_eq_some_iff.1 htoken
    rw [totalWidth_cons] at hwidth
    exact Calculator.fits_of_charged hcharged (by omega)

/-- At 200 digits the evaluation of `.01/3` comes to a quotient for which the exponents fit. -/
theorem hundredth_over_three_fits :
    Calculator.ReachesFrom (.clamp 200) ".01/3" ⟨[⟨3, 0⟩, ⟨1, -2⟩], []⟩
        [.operator (.binary .div)] ∧
      DivisionFits (.clamp 200) ⟨1, -2⟩ ⟨3, 0⟩ := by
  have htokens : tokenize ".01/3" =
      .ok [.number ".01", .operator (.binary .div), .number "3"] := by decide +kernel
  have hfirst : Calculator.start.push (.clamp 200) (.number ".01") = .ok ⟨[⟨1, -2⟩], []⟩ := by
    decide +kernel
  have hsecond : (⟨[⟨1, -2⟩], []⟩ : Calculator).push (.clamp 200) (.number "3") =
      .ok ⟨[⟨3, 0⟩, ⟨1, -2⟩], []⟩ := by decide +kernel
  have hreaches : Calculator.ReachesFrom (.clamp 200) ".01/3" ⟨[⟨3, 0⟩, ⟨1, -2⟩], []⟩
      [.operator (.binary .div)] :=
    ⟨_, [.number ".01", .number "3"], htokens, by decide +kernel,
      .push (.push .refl hfirst) hsecond⟩
  refine ⟨hreaches, ?_⟩
  exact (exponents_fit (by decide) hreaches).2 _ rfl _ _ _ rfl (by decide) (by decide)

end ExactCalculator
