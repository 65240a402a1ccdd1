import ExactCalculator.Proofs.Rearrangement
import Mathlib.Order.Basic

/-!
# Which operators are popped, and which wait

An operator is popped by the first later operator inside the same parentheses that it precedes
(`PopsAt`). Any other waits, inside some number of parentheses fewer than are open (`Waits`), until
these are closed or the tokens end. Both are said of the tokens alone, and so is the order in which
operators are popped (`IsPopOrder`); proved here is how they change with one more token.
-/

namespace ExactCalculator

namespace Conversion

/-- The token at this place is read as this operator. -/
def OperatorAt (tokens : List Token) (i : ℕ) (op : Operator) : Prop :=
  (readings [] tokens)[i]? = some (.operator op)

/-- The tokens leave `d` parentheses open, and close none that was opened before them. -/
structure Opens (tokens : List Token) (d : ℕ) : Prop where
  closes : ∀ part, part <+: tokens → part.count .closing ≤ part.count .opening
  opens : tokens.count .opening = tokens.count .closing + d

/-- The operator at place `i` is to be applied before the one at the later place `j`, which stands
inside the same parentheses. -/
def AppliedBefore (tokens : List Token) (i j : ℕ) : Prop :=
  i < j ∧ Opens ((tokens.take j).drop (i + 1)) 0 ∧
    ∃ op next, OperatorAt tokens i op ∧ OperatorAt tokens j next ∧ op.precedes next = true

/-- The operator at place `j` is the first one before which that at place `i` is to be applied. -/
structure PopsAt (tokens : List Token) (i j : ℕ) : Prop where
  applied : AppliedBefore tokens i j
  first : ∀ k < j, ¬ AppliedBefore tokens i k

/-- An operator that is popped, its place, and the place of the operator that pops it. -/
structure Pop where
  op : Operator
  place : ℕ
  popper : ℕ
  deriving DecidableEq, Repr

/-- An operator with its place, as a token. -/
def operatorToken (x : Operator × ℕ) : Token × ℕ := (.operator x.1, x.2)

def Pop.token (x : Pop) : Token × ℕ := operatorToken (x.op, x.place)

/-- The operator is popped as it says. -/
def Pop.Occurs (tokens : List Token) (x : Pop) : Prop :=
  OperatorAt tokens x.place x.op ∧ PopsAt tokens x.place x.popper

/-- All operators that are popped before the first fault. Those that one operator pops are written
before those that a later one pops, the latest of them first. -/
structure IsPopOrder (tokens : List Token) (pops : List Pop) : Prop where
  mem_iff : ∀ x, x ∈ pops ↔ x.Occurs tokens ∧ ∀ i ≤ x.popper, ∀ err, ¬ FaultAt tokens i err
  order : pops.Pairwise fun x y => x.popper < y.popper ∨ (x.popper = y.popper ∧ y.place < x.place)

/-- The operator waits after the tokens, inside `d` parentheses fewer than are open. -/
structure Waits (before : List Token) (d : ℕ) (x : Operator × ℕ) : Prop where
  operator : OperatorAt before x.2 x.1
  opens : Opens (before.drop (x.2 + 1)) d
  unpopped : ∀ j, ¬ AppliedBefore before x.2 j

section

variable {before tokens : List Token} {token : Token} {i j d e : ℕ} {op next : Operator}

/-! ## One more token -/

theorem OperatorAt.lt_length (h : OperatorAt tokens i op) : i < tokens.length := by
  obtain ⟨hlt, -⟩ := List.getElem?_eq_some_iff.1 h
  rwa [length_readings] at hlt

theorem OperatorAt.unique (h : OperatorAt tokens i op) (h' : OperatorAt tokens i next) :
    op = next :=
  Token.operator.inj (Option.some.inj (h.symm.trans h'))

theorem operatorAt_append :
    OperatorAt (before ++ [token]) i op ↔
      OperatorAt before i op ∨ (i = before.length ∧ reading before token = .operator op) := by
  rw [OperatorAt, readings_append, OperatorAt, List.nil_append]
  rcases lt_trichotomy i before.length with hlt | rfl | hgt
  · rw [List.getElem?_append_left (by rwa [length_readings])]
    simp [hlt.ne]
  · rw [← length_readings [] before]
    simp
  · have hlen : (readings [] before).length < i := by rwa [length_readings]
    rw [List.getElem?_append_right hlen.le, List.getElem?_eq_none hlen.le,
      List.getElem?_singleton, if_neg (by omega)]
    simp [hgt.ne']

theorem Opens.unique (h : Opens tokens d) (h' : Opens tokens e) : d = e := by
  have hd := h.opens
  have he := h'.opens
  omega

theorem opens_nil : Opens [] d ↔ d = 0 := by
  constructor
  · intro h
    simpa using h.opens.symm
  · rintro rfl
    exact ⟨fun part hpart => by simp [List.prefix_nil.1 hpart], rfl⟩

theorem opens_append :
    Opens (before ++ [token]) d ↔
      (∀ part, part <+: before → part.count .closing ≤ part.count .opening) ∧
        (before ++ [token]).count .opening = (before ++ [token]).count .closing + d := by
  constructor
  · intro h
    exact ⟨fun part hpart => h.closes part (List.prefix_concat_iff.2 (Or.inr hpart)), h.opens⟩
  · rintro ⟨hparts, hcount⟩
    refine ⟨fun part hpart => ?_, hcount⟩
    rcases List.prefix_concat_iff.1 hpart with rfl | hpart
    · omega
    · exact hparts part hpart

theorem opens_append_other (h : token.isParenthesis = false) :
    Opens (before ++ [token]) d ↔ Opens before d := by
  have hcount : ∀ parenthesis : Token, parenthesis.isParenthesis = true →
      (before ++ [token]).count parenthesis = before.count parenthesis := by
    intro parenthesis hp
    rw [List.count_append, List.count_singleton, if_neg, Nat.add_zero]
    rintro hbeq
    rw [beq_iff_eq.1 hbeq, hp] at h
    cases h
  rw [opens_append, hcount .opening rfl, hcount .closing rfl]
  exact ⟨fun h => ⟨h.1, h.2⟩, fun h => ⟨h.closes, h.opens⟩⟩

theorem opens_append_opening :
    Opens (before ++ [.opening]) d ↔ ∃ e, d = e + 1 ∧ Opens before e := by
  rw [opens_append, List.count_append, List.count_append, List.count_singleton_self,
    show [Token.opening].count .closing = 0 from rfl]
  constructor
  · rintro ⟨hparts, hcount⟩
    have hle := hparts before (List.prefix_refl before)
    exact ⟨d - 1, by omega, hparts, by omega⟩
  · rintro ⟨e, rfl, hparts, hcount⟩
    exact ⟨hparts, by omega⟩

theorem opens_append_closing : Opens (before ++ [.closing]) d ↔ Opens before (d + 1) := by
  rw [opens_append, List.count_append, List.count_append, List.count_singleton_self,
    show [Token.closing].count .opening = 0 from rfl]
  constructor
  · rintro ⟨hparts, hcount⟩
    exact ⟨hparts, by omega⟩
  · rintro ⟨hparts, hcount⟩
    exact ⟨hparts, by omega⟩

/-- A new operator may be one before which an operator is to be applied. -/
theorem appliedBefore_append :
    AppliedBefore (before ++ [token]) i j ↔ AppliedBefore before i j ∨
      (j = before.length ∧ Opens (before.drop (i + 1)) 0 ∧
        ∃ op next, OperatorAt before i op ∧ reading before token = .operator next ∧
          op.precedes next = true) := by
  constructor
  · rintro ⟨hij, hopens, op, next, hop, hnext, hprecedes⟩
    rcases operatorAt_append.1 hnext with hnext | ⟨rfl, hread⟩
    · have hj := hnext.lt_length
      have hop' := (operatorAt_append.1 hop).resolve_right fun h => by omega
      rw [List.take_append_of_le_length hj.le] at hopens
      exact Or.inl ⟨hij, hopens, op, next, hop', hnext, hprecedes⟩
    · have hop' := (operatorAt_append.1 hop).resolve_right fun h => by omega
      rw [List.take_left] at hopens
      exact Or.inr ⟨rfl, hopens, op, next, hop', hread, hprecedes⟩
  · rintro (⟨hij, hopens, op, next, hop, hnext, hprecedes⟩ |
      ⟨rfl, hopens, op, next, hop, hread, hprecedes⟩)
    · refine ⟨hij, ?_, op, next, operatorAt_append.2 (Or.inl hop),
        operatorAt_append.2 (Or.inl hnext), hprecedes⟩
      rwa [List.take_append_of_le_length hnext.lt_length.le]
    · refine ⟨hop.lt_length, ?_, op, next, operatorAt_append.2 (Or.inl hop),
        operatorAt_append.2 (Or.inr ⟨rfl, hread⟩), hprecedes⟩
      rwa [List.take_left]

theorem AppliedBefore.lt_length (h : AppliedBefore tokens i j) : j < tokens.length := by
  obtain ⟨-, -, op, next, -, hnext, -⟩ := h
  exact hnext.lt_length

/-- A new operator pops those that wait inside its own parentheses and precede it. -/
theorem popsAt_append :
    PopsAt (before ++ [token]) i j ↔ PopsAt before i j ∨
      (j = before.length ∧ ∃ op next, Waits before 0 (op, i) ∧
        reading before token = .operator next ∧ op.precedes next = true) := by
  constructor
  · rintro ⟨happlied, hfirst⟩
    have hfirst' : ∀ k < j, ¬ AppliedBefore before i k :=
      fun k hk h => hfirst k hk (appliedBefore_append.2 (Or.inl h))
    rcases appliedBefore_append.1 happlied with happlied | ⟨rfl, hopens, op, next, hop, hnext⟩
    · exact Or.inl ⟨happlied, hfirst'⟩
    · exact Or.inr ⟨rfl, op, next, ⟨hop, hopens, fun k h => hfirst' k h.lt_length h⟩, hnext⟩
  · rintro (⟨happlied, hfirst⟩ | ⟨rfl, op, next, hwaits, hnext⟩)
    · refine ⟨appliedBefore_append.2 (Or.inl happlied), fun k hk h => ?_⟩
      have hj := happlied.lt_length
      exact hfirst k hk ((appliedBefore_append.1 h).resolve_right fun h => by omega)
    · refine ⟨appliedBefore_append.2
        (Or.inr ⟨rfl, hwaits.opens, op, next, hwaits.operator, hnext⟩), fun k hk h => ?_⟩
      exact hwaits.unpopped k ((appliedBefore_append.1 h).resolve_right fun h => by omega)

theorem occurs_append {x : Pop} :
    x.Occurs (before ++ [token]) ↔ x.Occurs before ∨
      (x.popper = before.length ∧ Waits before 0 (x.op, x.place) ∧
        ∃ next, reading before token = .operator next ∧ x.op.precedes next = true) := by
  constructor
  · rintro ⟨hop, hpops⟩
    rcases popsAt_append.1 hpops with hpops | ⟨hpopper, op, next, hwaits, hnext⟩
    · have hlt := hpops.applied.1.trans hpops.applied.lt_length
      exact Or.inl ⟨(operatorAt_append.1 hop).resolve_right fun h => by omega, hpops⟩
    · have hlt := hwaits.operator.lt_length
      have hop' := (operatorAt_append.1 hop).resolve_right fun h => by simp at hlt; omega
      obtain rfl := hwaits.operator.unique hop'
      exact Or.inr ⟨hpopper, hwaits, next, hnext⟩
  · rintro (⟨hop, hpops⟩ | ⟨hpopper, hwaits, next, hnext⟩)
    · exact ⟨operatorAt_append.2 (Or.inl hop), popsAt_append.2 (Or.inl hpops)⟩
    · exact ⟨operatorAt_append.2 (Or.inl hwaits.operator),
        popsAt_append.2 (Or.inr ⟨hpopper, x.op, next, hwaits, hnext⟩)⟩

theorem occurs_append_of_ne {x : Pop} (h : ∀ op, reading before token ≠ .operator op) :
    x.Occurs (before ++ [token]) ↔ x.Occurs before := by
  rw [occurs_append, or_iff_left]
  rintro ⟨-, -, next, hnext, -⟩
  exact h next hnext

theorem occurs_append_of_lt {x : Pop} {rest : List Token} (h : x.popper < before.length) :
    x.Occurs (before ++ rest) ↔ x.Occurs before := by
  induction rest using List.reverseRecOn with
  | nil => rw [List.append_nil]
  | append_singleton rest token ih =>
    rw [← List.append_assoc, occurs_append, ih, or_iff_left]
    rintro ⟨hpopper, -⟩
    rw [List.length_append] at hpopper
    omega

/-! ## Faults and the tokens after them -/

theorem faultAt_append_of_lt {rest : List Token} {err : EvalError} (h : i < before.length) :
    FaultAt (before ++ rest) i err ↔ FaultAt before i err := by
  rw [FaultAt, List.getElem?_append_left h, List.take_append_of_le_length h.le, FaultAt]

theorem faultAt_length {rest : List Token} {err : EvalError} :
    FaultAt (before ++ rest) before.length err ↔ ∃ token, rest.head? = some token ∧
      Fault before token err := by
  rw [FaultAt, List.getElem?_append_right le_rfl, Nat.sub_self, List.take_left,
    List.head?_eq_getElem?]

theorem Faultless.append (h : Faultless before) (htoken : ∀ err, ¬ Fault before token err) :
    Faultless (before ++ [token]) := by
  intro i err hfault
  obtain ⟨_, hsome, -⟩ := id hfault
  obtain ⟨hlt, -⟩ := List.getElem?_eq_some_iff.1 hsome
  rw [List.length_append, List.length_singleton] at hlt
  rcases Nat.lt_succ_iff_lt_or_eq.1 hlt with hlt | rfl
  · exact h i err ((faultAt_append_of_lt hlt).1 hfault)
  · obtain ⟨token', htoken', hfault⟩ := faultAt_length.1 hfault
    obtain rfl : token = token' := Option.some.inj htoken'
    exact htoken err hfault

/-! ## What waits after one more token -/

variable {x : Operator × ℕ}

/-- Only an operator is new or pops others. -/
theorem waits_append_of_ne (h : ∀ op, reading before token ≠ .operator op) :
    Waits (before ++ [token]) d x ↔ OperatorAt before x.2 x.1 ∧
      Opens (before.drop (x.2 + 1) ++ [token]) d ∧ ∀ j, ¬ AppliedBefore before x.2 j := by
  have happlied : ∀ i j, AppliedBefore (before ++ [token]) i j ↔ AppliedBefore before i j := by
    intro i j
    rw [appliedBefore_append, or_iff_left]
    rintro ⟨-, -, op, next, -, hnext, -⟩
    exact h next hnext
  constructor
  · rintro ⟨hop, hopens, hunpopped⟩
    have hop' := (operatorAt_append.1 hop).resolve_right fun h' => h x.1 h'.2
    rw [List.drop_append_of_le_length hop'.lt_length] at hopens
    exact ⟨hop', hopens, fun j hj => hunpopped j ((happlied _ _).2 hj)⟩
  · rintro ⟨hop, hopens, hunpopped⟩
    refine ⟨operatorAt_append.2 (Or.inl hop), ?_, fun j hj => hunpopped j ((happlied _ _).1 hj)⟩
    rwa [List.drop_append_of_le_length hop.lt_length]

theorem waits_append_number {literal : String} :
    Waits (before ++ [.number literal]) d x ↔ Waits before d x := by
  rw [waits_append_of_ne (fun op h => by cases h), opens_append_other rfl]
  exact ⟨fun h => ⟨h.1, h.2.1, h.2.2⟩, fun h => ⟨h.operator, h.opens, h.unpopped⟩⟩

theorem waits_append_opening :
    Waits (before ++ [.opening]) d x ↔ ∃ e, d = e + 1 ∧ Waits before e x := by
  rw [waits_append_of_ne (fun op h => by cases h), opens_append_opening]
  constructor
  · rintro ⟨hop, ⟨e, he, hopens⟩, hunpopped⟩
    exact ⟨e, he, hop, hopens, hunpopped⟩
  · rintro ⟨e, he, hop, hopens, hunpopped⟩
    exact ⟨hop, ⟨e, he, hopens⟩, hunpopped⟩

theorem waits_append_closing :
    Waits (before ++ [.closing]) d x ↔ Waits before (d + 1) x := by
  rw [waits_append_of_ne (fun op h => by cases h), opens_append_closing]
  exact ⟨fun h => ⟨h.1, h.2.1, h.2.2⟩, fun h => ⟨h.operator, h.opens, h.unpopped⟩⟩

theorem waits_append_operator {read : Operator}
    (hread : reading before (.operator read) = .operator op) :
    Waits (before ++ [.operator read]) d x ↔ (d = 0 ∧ x = (op, before.length)) ∨
      (Waits before d x ∧ (d = 0 → x.1.precedes op = false)) := by
  constructor
  · rintro ⟨hop, hopens, hunpopped⟩
    rcases operatorAt_append.1 hop with hop | ⟨hx, hop⟩
    · rw [List.drop_append_of_le_length hop.lt_length, opens_append_other rfl] at hopens
      refine Or.inr ⟨⟨hop, hopens, fun j hj => hunpopped j (appliedBefore_append.2 (Or.inl hj))⟩, ?_⟩
      rintro rfl
      by_contra hprecedes
      exact hunpopped _ (appliedBefore_append.2
        (Or.inr ⟨rfl, hopens, x.1, op, hop, hread, by simpa using hprecedes⟩))
    · obtain rfl : op = x.1 := Token.operator.inj (hread.symm.trans hop)
      rw [hx, List.drop_eq_nil_of_le (by simp), opens_nil] at hopens
      exact Or.inl ⟨hopens, by rw [← hx]⟩
  · rintro (⟨rfl, rfl⟩ | ⟨⟨hop, hopens, hunpopped⟩, hprecedes⟩)
    · refine ⟨operatorAt_append.2 (Or.inr ⟨rfl, hread⟩), ?_, fun j hj => ?_⟩
      · rw [List.drop_eq_nil_of_le (by simp), opens_nil]
      · have hlt := hj.lt_length
        have hgt := hj.1
        simp at hlt hgt
        omega
    · refine ⟨operatorAt_append.2 (Or.inl hop), ?_, fun j hj => ?_⟩
      · rwa [List.drop_append_of_le_length hop.lt_length, opens_append_other rfl]
      · rcases appliedBefore_append.1 hj with hj | ⟨-, hopens', op', next, hop', hnext, hlt⟩
        · exact hunpopped j hj
        · -- Then it waits inside the same parentheses, but does not precede the new operator.
          obtain rfl := hop.unique hop'
          obtain rfl : op = next := Token.operator.inj (hread.symm.trans hnext)
          rw [hprecedes (hopens.unique hopens')] at hlt
          cases hlt

end

end Conversion

end ExactCalculator
