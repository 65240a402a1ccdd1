import ExactCalculator.Proofs.Evaluation
import Mathlib.Data.Nat.Find

/-!
# What conversion finds wrong

A token may be at fault because of what stands before it: a `*` or `/` where a value is expected,
or a closing parenthesis when all parentheses before it are closed (`Fault`). The first fault gives
the error of a conversion. Without one, the end may come too early: after an operator or an opening
parenthesis, or with a parenthesis still open (`Fails`).

A converter that has read tokens without a fault expects a value where they end with an operator or
an opening parenthesis, and waits around as many parentheses as are open (`Converter.Tracks`). Main
statement: `conversion_verdict`.
-/

namespace ExactCalculator

namespace Conversion

/-! ## Faults -/

/-- A value has to come after these tokens: they are none, or end with an operator or an opening
parenthesis. -/
def ExpectsValue (before : List Token) : Prop :=
  before = [] ∨ before.getLast? = some .opening ∨ ∃ op, before.getLast? = some (.operator op)

/-- The error that a token is after others. -/
inductive Fault (before : List Token) : Token → EvalError → Prop
  | misplaced {op : BinaryOperator} : ExpectsValue before → op = .mul ∨ op = .div →
      Fault before (.operator (.binary op)) .operatorAfterOperator
  | unopened : before.count .closing = before.count .opening →
      Fault before .closing .mismatchedParentheses

def FaultAt (tokens : List Token) (i : ℕ) (err : EvalError) : Prop :=
  ∃ token, tokens[i]? = some token ∧ Fault (tokens.take i) token err

def FirstFault (tokens : List Token) (err : EvalError) : Prop :=
  ∃ i, FaultAt tokens i err ∧ ∀ j < i, ∀ err', ¬ FaultAt tokens j err'

def Faultless (tokens : List Token) : Prop := ∀ i err, ¬ FaultAt tokens i err

/-- The error of tokens that are not converted. Any fault of a token comes before those of the
end. -/
inductive Fails (tokens : List Token) : EvalError → Prop
  | empty : tokens = [] → Fails tokens .emptyExpression
  | fault {err : EvalError} : FirstFault tokens err → Fails tokens err
  | trailing : tokens ≠ [] → Faultless tokens → ExpectsValue tokens →
      Fails tokens .trailingOperator
  | unclosed : Faultless tokens → ¬ ExpectsValue tokens →
      tokens.count .closing < tokens.count .opening → Fails tokens .mismatchedParentheses

theorem exists_firstFault {tokens : List Token} (h : ¬ Faultless tokens) :
    ∃ err, FirstFault tokens err := by
  classical
  have hex : ∃ i, ∃ err, FaultAt tokens i err := by
    simpa only [Faultless, not_forall, not_not] using h
  obtain ⟨err, herr⟩ := Nat.find_spec hex
  refine ⟨err, Nat.find hex, herr, ?_⟩
  intro j hj err' hfault
  exact Nat.find_min hex hj ⟨err', hfault⟩

theorem fails_nil {err : EvalError} : Fails [] err ↔ err = .emptyExpression := by
  constructor
  · intro h
    cases h with
    | empty => rfl
    | fault h =>
      obtain ⟨i, ⟨token, htoken, -⟩, -⟩ := h
      simp at htoken
    | trailing h => exact absurd rfl h
    | unclosed _ h => exact absurd (Or.inl rfl) h
  · rintro rfl
    exact .empty rfl

theorem fails_iff_of_faultless {tokens : List Token} {err : EvalError} (hne : tokens ≠ [])
    (hfault : Faultless tokens) :
    Fails tokens err ↔ (ExpectsValue tokens ∧ err = .trailingOperator) ∨
      (¬ ExpectsValue tokens ∧ tokens.count .closing < tokens.count .opening ∧
        err = .mismatchedParentheses) := by
  constructor
  · intro h
    cases h with
    | empty h => exact absurd h hne
    | fault h =>
      obtain ⟨i, h, -⟩ := h
      exact absurd h (hfault i err)
    | trailing _ _ hexpects => exact Or.inl ⟨hexpects, rfl⟩
    | unclosed _ hexpects hcount => exact Or.inr ⟨hexpects, hcount, rfl⟩
  · rintro (⟨hexpects, rfl⟩ | ⟨hexpects, hcount, rfl⟩)
    · exact .trailing hne hfault hexpects
    · exact .unclosed hfault hexpects hcount

theorem fails_iff_of_not_faultless {tokens : List Token} {err : EvalError} (hne : tokens ≠ [])
    (hfault : ¬ Faultless tokens) : Fails tokens err ↔ FirstFault tokens err := by
  constructor
  · intro h
    cases h with
    | empty h => exact absurd h hne
    | fault h => exact h
    | trailing _ h => exact absurd h hfault
    | unclosed h => exact absurd h hfault
  · exact .fault

theorem expectsValue_append (before : List Token) (token : Token) :
    ExpectsValue (before ++ [token]) ↔ (Position.after token).expectsValue = true := by
  rw [ExpectsValue, List.getLast?_append]
  cases token <;> simp [Position.after, Position.expectsValue]

end Conversion

open Conversion

/-! ## What the converter knows about the tokens it has read -/

namespace Converter

structure Tracks (c : Converter) (before : List Token) : Prop where
  position : c.position.expectsValue = true ↔ ExpectsValue before
  /-- The parentheses that are open. -/
  depth : c.enclosing.length + before.count .closing = before.count .opening

theorem tracks_start : start.Tracks [] :=
  ⟨by simp [start, Position.start, Position.expectsValue, ExpectsValue], rfl⟩

variable {c next : Converter} {before tokens : List Token} {token : Token}

theorem Tracks.push (h : c.Tracks before) (hpush : c.push token = .ok next) :
    next.Tracks (before ++ [token]) := by
  constructor
  · rw [position_of_push hpush, expectsValue_append]
  · have hdepth := h.depth
    rcases push_ok_iff.1 hpush with ⟨literal, rfl, rfl⟩ | ⟨rfl, rfl⟩ |
      ⟨outer, enclosing, rfl, henclosing, rfl⟩ | ⟨read, op, rfl, -, rfl⟩
    · simpa using hdepth
    · simp only [List.length_cons, List.count_append, ne_eq, reduceCtorEq, not_false_eq_true,
        List.count_cons_of_ne, List.count_nil, Nat.add_zero, List.count_cons_self, Nat.zero_add]
      omega
    · simp only [henclosing, List.length_cons, List.count_append, List.count_cons_self,
        List.count_nil, Nat.zero_add, ne_eq, reduceCtorEq, not_false_eq_true,
        List.count_cons_of_ne, Nat.add_zero] at hdepth ⊢
      omega
    · simpa [pushOperator] using hdepth

/-- The converter stops at a token exactly when it is at fault. -/
theorem Tracks.push_error_iff (h : c.Tracks before) {err : EvalError} :
    c.push token = .error err ↔ Fault before token err := by
  constructor
  · intro hpush
    rcases push_error hpush with ⟨rfl, rfl, henclosing⟩ | ⟨rfl, hp, op, rfl, hs⟩
    · have hdepth := h.depth
      rw [henclosing, List.length_nil, Nat.zero_add] at hdepth
      exact .unopened hdepth
    · match op with
      | .binary .mul => exact .misplaced (h.position.1 hp) (Or.inl rfl)
      | .binary .div => exact .misplaced (h.position.1 hp) (Or.inr rfl)
      | .binary .add | .binary .sub | .sign _ => cases hs
  · intro hfault
    cases hfault with
    | @misplaced op hexpects hop =>
      have hs : (Operator.binary op).asSign? = none := by rcases hop with rfl | rfl <;> rfl
      simp [Converter.push, Position.resolve, h.position.2 hexpects, hs, Except.map]
    | unopened hcount =>
      have henclosing : c.enclosing = [] := by
        have hdepth := h.depth
        rw [← List.length_eq_zero_iff]
        omega
      simp [Converter.push, henclosing]

/-- As long as there is no fault, all tokens are read. -/
theorem exists_tracks {n : ℕ} (hn : n ≤ tokens.length)
    (h : ∀ i < n, ∀ err, ¬ FaultAt tokens i err) :
    ∃ c : Converter, c.Tracks (tokens.take n) ∧ start.run tokens = c.run (tokens.drop n) := by
  induction n with
  | zero => exact ⟨start, tracks_start, rfl⟩
  | succ n ih =>
    obtain ⟨c, htracks, hrun⟩ := ih (by omega) fun i hi => h i (by omega)
    have hlt : n < tokens.length := by omega
    rw [List.drop_eq_getElem_cons hlt] at hrun
    cases hpush : c.push tokens[n] with
    | error err =>
      exact absurd ⟨tokens[n], List.getElem?_eq_getElem hlt, htracks.push_error_iff.1 hpush⟩
        (h n (by omega) err)
    | ok next =>
      refine ⟨next, ?_, hrun.trans (run_cons_ok hpush _)⟩
      rw [← List.take_append_getElem hlt]
      exact htracks.push hpush

theorem run_error_of_firstFault {err : EvalError} (h : FirstFault tokens err) :
    (start.run tokens).verdict = .error err := by
  obtain ⟨i, ⟨token, htoken, hfault⟩, hbefore⟩ := h
  obtain ⟨hlt, rfl⟩ := List.getElem?_eq_some_iff.1 htoken
  obtain ⟨c, htracks, hrun⟩ := exists_tracks (Nat.le_of_lt hlt) hbefore
  rw [hrun, List.drop_eq_getElem_cons hlt, run, htracks.push_error_iff.2 hfault]

theorem run_eq_finish_of_faultless (h : Faultless tokens) :
    ∃ c : Converter, c.Tracks tokens ∧ (start.run tokens).verdict = c.finish := by
  obtain ⟨c, htracks, hrun⟩ := exists_tracks le_rfl fun i _ => h i
  rw [List.take_length] at htracks
  rw [List.drop_length] at hrun
  exact ⟨c, htracks, by rw [hrun, run]⟩

theorem Tracks.finish_error_iff (h : c.Tracks tokens) {err : EvalError} :
    c.finish = .error err ↔
      (ExpectsValue tokens ∧ err = .trailingOperator) ∨
        (¬ ExpectsValue tokens ∧ tokens.count .closing < tokens.count .opening ∧
          err = .mismatchedParentheses) := by
  have hdepth := h.depth
  rw [← h.position, finish]
  cases hp : c.position.expectsValue with
  | true => simp [eq_comm]
  | false =>
    cases he : c.enclosing with
    | nil =>
      have hle : ¬ tokens.count .closing < tokens.count .opening := by
        rw [he, List.length_nil] at hdepth
        omega
      simp [hle]
    | cons outer enclosing =>
      rw [he, List.length_cons] at hdepth
      have hlt : tokens.count .closing < tokens.count .opening := by omega
      simp [hlt, eq_comm]

end Converter

/-! ## The verdict -/

theorem toRpn_error_iff_fails {tokens : List Token} {err : EvalError} :
    toRpn tokens = .error err ↔ Fails tokens err := by
  by_cases hne : tokens = []
  · subst hne
    rw [fails_nil]
    constructor
    · rintro ⟨⟩
      rfl
    · rintro rfl
      rfl
  rw [toRpn, convert_eq_run hne]
  by_cases hfault : Faultless tokens
  · obtain ⟨c, htracks, hrun⟩ := Converter.run_eq_finish_of_faultless hfault
    rw [hrun, htracks.finish_error_iff, fails_iff_of_faultless hne hfault]
  · obtain ⟨err', hfirst⟩ := exists_firstFault hfault
    rw [fails_iff_of_not_faultless hne hfault]
    constructor
    · rw [Converter.run_error_of_firstFault hfirst]
      rintro ⟨⟩
      exact hfirst
    · exact Converter.run_error_of_firstFault

/-- Every list of tokens is converted or fails with the one error that belongs to it, whether its
operators are signs or not and whatever its literals. It is converted when it is not empty, no token
is at fault, it does not end where a value is expected, and every parenthesis is closed. -/
theorem conversion_verdict (tokens : List Token) :
    (∀ err, toRpn tokens = .error err ↔ Fails tokens err) ∧
      ((∃ rpn, toRpn tokens = .ok rpn) ↔ tokens ≠ [] ∧ Faultless tokens ∧ ¬ ExpectsValue tokens ∧
        tokens.count .opening ≤ tokens.count .closing) := by
  refine ⟨fun err => toRpn_error_iff_fails, ?_⟩
  constructor
  · rintro ⟨rpn, hrpn⟩
    have hnot : ∀ err, ¬ Fails tokens err := by
      intro err h
      rw [toRpn_error_iff_fails.2 h] at hrpn
      cases hrpn
    have hne : tokens ≠ [] := fun h => hnot _ (.empty h)
    have hfault : Faultless tokens := by
      by_contra h
      obtain ⟨err, hfirst⟩ := exists_firstFault h
      exact hnot err (.fault hfirst)
    have hexpects : ¬ ExpectsValue tokens := fun h => hnot _ (.trailing hne hfault h)
    exact ⟨hne, hfault, hexpects, Nat.not_lt.1 fun h => hnot _ (.unclosed hfault hexpects h)⟩
  · rintro ⟨hne, hfault, hexpects, hcount⟩
    cases hrpn : toRpn tokens with
    | ok rpn => exact ⟨rpn, rfl⟩
    | error err =>
      rcases (fails_iff_of_faultless hne hfault).1 (toRpn_error_iff_fails.1 hrpn) with
        ⟨h, -⟩ | ⟨-, h, -⟩
      · exact absurd h hexpects
      · exact absurd h (Nat.not_lt.2 hcount)

end ExactCalculator
