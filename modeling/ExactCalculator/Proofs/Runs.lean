import ExactCalculator.Rpn.Evaluation
import Mathlib.Data.List.Induction

/-!
# Runs of the calculator

What one token does to the calculator is collected in `Calculator.push_ok_iff`. `Reaches` is the
run over any part of a token list, whether or not the rest of the list succeeds: what one step keeps
therefore holds of every stack of values that ever occurs, by induction on `Reaches`. A calculation
that succeeds is one that reaches its end with a single value (`Calculator.evalRpn_ok_iff`); any
other stops on the way (`Calculator.exists_stops`).
-/

namespace ExactCalculator

namespace Calculator

theorem run_cons_ok {p : Precision} {c next : Calculator} {token : Token}
    (h : c.push p token = .ok next) (rest : List Token) :
    c.run p (token :: rest) = next.run p rest := by
  rw [run, h]

theorem run_cons_error {p : Precision} {c : Calculator} {token : Token}
    {err : EvalError} (h : c.push p token = .error err) (rest : List Token) :
    (c.run p (token :: rest)).verdict = .error err := by
  rw [run, h]

theorem push_ok_iff {p : Precision} {c next : Calculator} {token : Token} :
    c.push p token = .ok next ↔
      (∃ literal v, token = .number literal ∧ Decimal.parse literal = .ok v ∧
        next = { c with values := v :: c.values }) ∨
      (∃ s v rest, token = .operator (.sign s) ∧ c.values = v :: rest ∧
        next = { c with values := s.apply p v :: rest }) ∨
      (∃ op a b rest r, token = .operator (.binary op) ∧ c.values = b :: a :: rest ∧
        op.apply p a b = .ok r ∧ next = ⟨r :: rest, ⟨a, op, b, r⟩ :: c.completed⟩) := by
  constructor
  · intro h
    match token with
    | .number literal =>
      cases hv : Decimal.parse literal with
      | error e => simp [push, hv] at h
      | ok v =>
        simp only [push, hv, Except.ok.injEq] at h
        exact Or.inl ⟨literal, v, rfl, hv, h.symm⟩
    | .operator (.sign s) =>
      cases hc : c.values with
      | nil => simp [push, hc] at h
      | cons v rest =>
        simp only [push, hc, Except.ok.injEq] at h
        exact Or.inr (Or.inl ⟨s, v, rest, rfl, rfl, h.symm⟩)
    | .operator (.binary op) =>
      rcases hc : c.values with _ | ⟨b, _ | ⟨a, rest⟩⟩
      · simp [push, hc] at h
      · simp [push, hc] at h
      · cases hr : op.apply p a b with
        | error e => simp [push, hc, hr] at h
        | ok r =>
          simp only [push, hc, hr, Except.ok.injEq] at h
          exact Or.inr (Or.inr ⟨op, a, b, rest, r, rfl, rfl, hr, h.symm⟩)
    | .opening | .closing => cases h
  · rintro (⟨literal, v, rfl, hv, rfl⟩ | ⟨s, v, rest, rfl, hc, rfl⟩ |
      ⟨op, a, b, rest, r, rfl, hc, hr, rfl⟩)
    · simp only [push, hv]
    · simp only [push, hc]
    · simp only [push, hc, hr]

/-! ## Any part of a run -/

/-- Reading the tokens one after the other leads from one calculator to the other. -/
inductive Reaches (p : Precision) (c : Calculator) : List Token → Calculator → Prop
  | refl : Reaches p c [] c
  | push {tokens : List Token} {token : Token} {mid next : Calculator} :
      Reaches p c tokens mid → mid.push p token = .ok next → Reaches p c (tokens ++ [token]) next

theorem Reaches.run_append {p : Precision} {c next : Calculator} {tokens : List Token}
    (h : c.Reaches p tokens next) (rest : List Token) :
    c.run p (tokens ++ rest) = next.run p rest := by
  induction h generalizing rest with
  | refl => rfl
  | push _ hpush ih =>
    rw [List.append_assoc, ih, List.singleton_append]
    exact run_cons_ok hpush rest

theorem reaches_nil {p : Precision} {c next : Calculator} : c.Reaches p [] next ↔ next = c := by
  constructor
  · intro h
    generalize htokens : ([] : List Token) = tokens at h
    cases h with
    | refl => rfl
    | push => simp at htokens
  · rintro rfl
    exact .refl

theorem reaches_append_singleton {p : Precision} {c next : Calculator} {tokens : List Token}
    {token : Token} :
    c.Reaches p (tokens ++ [token]) next ↔
      ∃ mid, c.Reaches p tokens mid ∧ mid.push p token = .ok next := by
  constructor
  · intro h
    generalize hall : tokens ++ [token] = all at h
    cases h with
    | refl => simp at hall
    | push hmid hpush =>
      obtain ⟨rfl, rfl⟩ := List.append_singleton_inj.1 hall
      exact ⟨_, hmid, hpush⟩
  · rintro ⟨mid, hmid, hpush⟩
    exact hmid.push hpush

/-- A run over two lists is a run over the first and then over the second. -/
theorem reaches_append {p : Precision} {c next : Calculator} {before tokens : List Token} :
    c.Reaches p (before ++ tokens) next ↔
      ∃ mid, c.Reaches p before mid ∧ mid.Reaches p tokens next := by
  induction tokens using List.reverseRecOn generalizing next with
  | nil => simp [reaches_nil]
  | append_singleton tokens token ih =>
    rw [← List.append_assoc, reaches_append_singleton]
    simp only [ih, reaches_append_singleton]
    constructor
    · rintro ⟨last, ⟨mid, hmid, hlast⟩, hpush⟩
      exact ⟨mid, hmid, last, hlast, hpush⟩
    · rintro ⟨mid, hmid, last, hlast, hpush⟩
      exact ⟨last, ⟨mid, hmid, hlast⟩, hpush⟩

theorem Reaches.unique {p : Precision} {c next next' : Calculator} {tokens : List Token}
    (h : c.Reaches p tokens next) (h' : c.Reaches p tokens next') : next = next' := by
  induction h generalizing next' with
  | refl => exact (reaches_nil.1 h').symm
  | push _ hpush ih =>
    obtain ⟨mid', hmid', hpush'⟩ := reaches_append_singleton.1 h'
    obtain rfl := ih hmid'
    exact Except.ok.inj (hpush.symm.trans hpush')

theorem finish_ok_iff_values {c : Calculator} {v : Decimal} :
    c.finish = .ok v ↔ c.values = [v] := by
  unfold finish
  split
  · next w hw => simp [hw]
  · next hne => simpa using hne v

/-- The calculator cannot go on: no token is left, or the next one is an error. -/
inductive Stops (p : Precision) (c : Calculator) :
    List Token → Except EvalError Decimal → Prop
  | finish : Stops p c [] c.finish
  | error {token : Token} {rest : List Token} {err : EvalError} :
      c.push p token = .error err → Stops p c (token :: rest) (.error err)

theorem stops_ok_iff {p : Precision} {c : Calculator} {rest : List Token} {v : Decimal} :
    c.Stops p rest (.ok v) ↔ rest = [] ∧ c.values = [v] := by
  rw [← finish_ok_iff_values]
  constructor
  · intro h
    generalize hverdict : Except.ok v = verdict at h
    cases h with
    | finish => exact ⟨rfl, rfl⟩
    | error => cases hverdict
  · rintro ⟨rfl, hv⟩
    rw [← hv]
    exact .finish

/-- A run goes on up to where it stops, and answers with what the calculator holds there. -/
theorem exists_stops {p : Precision} {c mid : Calculator} {before : List Token}
    (hmid : c.Reaches p before mid) (tokens : List Token) :
    ∃ read rest last, read ++ rest = before ++ tokens ∧ c.Reaches p read last ∧
      last.Stops p rest (mid.run p tokens).verdict ∧
      (mid.run p tokens).completed = last.completed.reverse := by
  induction tokens generalizing mid before with
  | nil => exact ⟨before, [], mid, rfl, hmid, .finish, rfl⟩
  | cons token tokens ih =>
    cases hpush : mid.push p token with
    | ok next =>
      have hnext := ih (hmid.push hpush)
      rwa [List.append_assoc, List.singleton_append, ← run_cons_ok hpush] at hnext
    | error err =>
      refine ⟨before, token :: tokens, mid, rfl, hmid, ?_, by rw [run, hpush]⟩
      rw [run_cons_error hpush]
      exact .error hpush

/-- A run that ends with a value reaches the end of its tokens. -/
theorem exists_reaches {p : Precision} {c mid : Calculator} {before tokens : List Token}
    {v : Decimal} (hmid : c.Reaches p before mid) (h : (mid.run p tokens).verdict = .ok v) :
    ∃ next, c.Reaches p (before ++ tokens) next ∧ next.values = [v] := by
  obtain ⟨read, rest, last, htokens, hlast, hstops, -⟩ := exists_stops hmid tokens
  rw [h] at hstops
  obtain ⟨rfl, hv⟩ := stops_ok_iff.1 hstops
  rw [List.append_nil] at htokens
  exact ⟨last, htokens ▸ hlast, hv⟩

/-- A value is found exactly when the run comes to its end with this value alone. -/
theorem evalRpn_ok_iff {p : Precision} {tokens : List Token} {v : Decimal} :
    evalRpn p tokens = .ok v ↔ ∃ c, start.Reaches p tokens c ∧ c.values = [v] := by
  constructor
  · exact fun h => exists_reaches .refl h
  · rintro ⟨c, hc, hv⟩
    have hrun := hc.run_append []
    rw [List.append_nil] at hrun
    rw [evalRpn, calculate, hrun]
    exact finish_ok_iff_values.2 hv

end Calculator

end ExactCalculator
