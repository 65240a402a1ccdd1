import ExactCalculator.Proofs.DisplayedSteps
import ExactCalculator.Proofs.Panel.History

/-!
# The shown steps are never stale

The steps of a panel are those of the result beside them: evaluating the shown tokens once more, at
the precision of their moment, gives the shown result and the shown steps (`Panel.Fresh`). An
action leaves the outputs alone, clears them, or shows a verdict, and a verdict is a success with
steps or an error without (`Fresh.act`), so this holds in every state of a run, whatever became of
the entry and the precision in the meantime. Main statement: `shown_steps_reproduce`.
-/

namespace ExactCalculator

namespace Panel

/-- There are no steps, or there is no error and the steps are those of the result. -/
inductive Fresh (p : Panel) : Prop
  | blank : p.tokens = "" → p.rpn = "" → Fresh p
  | explained {q : Precision} {result : Decimal} :
      p.error = "" → evaluateSteps q p.tokens = .ok ⟨result, p.tokens, p.rpn⟩ →
      result.toText = p.result → Fresh p

theorem fresh_initial : initial.Fresh := .blank rfl rfl

theorem Fresh.of_sameOutputs {p q : Panel} (h : p.Fresh) (hq : q.SameOutputs p) : q.Fresh := by
  cases h with
  | blank htokens hrpn => exact .blank (hq.tokens.trans htokens) (hq.rpn.trans hrpn)
  | explained herror hsteps hresult =>
    rw [← hq.tokens, ← hq.rpn] at hsteps
    exact .explained (hq.error.trans herror) hsteps (hresult.trans hq.result.symm)

/-- A success displays tokens that evaluate to itself, an error displays none. -/
theorem fresh_display (p : Panel) {q : Precision} {text : String}
    {verdict : Except EvalError Steps} (h : evaluateSteps q text = verdict) :
    (p.display verdict).Fresh := by
  cases verdict with
  | error err => exact .blank rfl rfl
  | ok s => exact .explained rfl (evaluateSteps_tokens h) rfl

/-- Every verdict that an action shows is one of an evaluation. -/
theorem exists_evaluateSteps_of_event? {p : Panel} {a : Action} {verdict : Except EvalError Steps}
    (h : p.event? a = some (.evaluated verdict)) :
    ∃ text, evaluateSteps p.precision text = verdict := by
  cases a with
  | press key =>
    cases key with
    | equals =>
      cases h
      exact ⟨p.entry, rfl⟩
    | _ => cases h
  | enter =>
    cases h
    exact ⟨p.entry, rfl⟩
  | apply text =>
    cases h
    exact ⟨text, rfl⟩
  | _ => cases h

theorem Fresh.act {p : Panel} (h : p.Fresh) (a : Action) : (p.act a).Fresh := by
  rcases act_outputs p a with ⟨-, hact⟩ | ⟨-, hact⟩ | ⟨verdict, hevent, hact⟩
  · exact h.of_sameOutputs hact
  · exact fresh_initial.of_sameOutputs hact
  · obtain ⟨text, hverdict⟩ := exists_evaluateSteps_of_event? hevent
    rw [hact]
    exact p.fresh_display hverdict

theorem Fresh.run {p : Panel} (h : p.Fresh) (actions : List Action) : (p.run actions).Fresh := by
  induction actions generalizing p with
  | nil => exact h
  | cons a actions ih => exact ih (h.act a)

/-- In every state of a run an error and steps are never shown together, and tokens only together
with their conversion; the tokens that are shown evaluate, at some precision, to the shown result
with the shown steps. -/
theorem shown_steps_reproduce {actions : List Action} {i : ℕ} {p : Panel}
    (h : (initial.history actions)[i]? = some p) :
    (p.error = "" ∨ p.tokens = "" ∧ p.rpn = "") ∧ (p.tokens = "" ↔ p.rpn = "") ∧
      (p.tokens ≠ "" → p.error = "" ∧ ∃ q : Precision, 1 ≤ q.digits ∧ q.digits ≤ 200 ∧
        ∃ result, evaluateSteps q p.tokens = .ok ⟨result, p.tokens, p.rpn⟩ ∧
          result.toText = p.result) := by
  have hfresh : p.Fresh := by
    rw [eq_run_of_getElem?_history h]
    exact fresh_initial.run _
  cases hfresh with
  | blank htokens hrpn =>
    exact ⟨Or.inr ⟨htokens, hrpn⟩, iff_of_true htokens hrpn, fun hne => absurd htokens hne⟩
  | @explained q result herror hsteps hresult =>
    obtain ⟨htokens, hrpn⟩ := steps_ne_empty hsteps
    exact ⟨Or.inl herror, iff_of_false htokens hrpn,
      fun _ => ⟨herror, q, q.one_le, q.le_max, result, hsteps, hresult⟩⟩

/-- A quotient at five digits, then another entry and another precision. -/
def outdatedRun : List Action :=
  [.setPrecision 5, .setEntry "-1/3", .press .equals, .setEntry "1/0", .typePrecision "2"]

/-- The steps belong to five digits, no longer to the precision that the panel has. -/
theorem steps_of_outdatedRun :
    ∃ p, (initial.history outdatedRun)[5]? = some p ∧ p.entry = "1/0" ∧ p.result = "-0.33333" ∧
      p.tokens = "- 1 / 3" ∧ p.rpn = "1 u- 3 /" ∧ p.error = "" ∧
      (∃ (q : Precision) (result : Decimal),
        evaluateSteps q "- 1 / 3" = .ok ⟨result, "- 1 / 3", "1 u- 3 /"⟩ ∧
          result.toText = "-0.33333") ∧
      (evaluate p.precision p.tokens).map Decimal.toText = .ok "-0.33" := by
  have hreached : (initial.history outdatedRun)[5]? =
      some ⟨"1/0", "-0.33333", "", "- 1 / 3", "1 u- 3 /", .clamp 2⟩ := by decide +kernel
  obtain ⟨-, -, hsteps⟩ := shown_steps_reproduce hreached
  obtain ⟨herror, q, -, -, result, hresult, htext⟩ := hsteps (by decide)
  exact ⟨_, hreached, rfl, rfl, rfl, rfl, herror, ⟨q, result, hresult, htext⟩, by decide +kernel⟩

end Panel

end ExactCalculator
