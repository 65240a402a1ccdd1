import ExactCalculator.Panel
import Mathlib.Data.List.Basic

/-!
# What a panel shows

An action may clear the outputs of a panel or evaluate a text at its precision (`Panel.event?`), and
leaves the outputs alone otherwise. So the outputs are determined by the evaluations since they were
last cleared (`Panel.Shows`): the result is that of the last success, the error and the steps are
those of the last evaluation. The entry and the precision, which an evaluation reads, never depend
on the outputs (`Panel.SameInputs`). Main statement: `outputs_of_history`.
-/

namespace ExactCalculator

namespace Panel

/-! ## Runs -/

/-- The state that a run ends in. -/
def run (p : Panel) (actions : List Action) : Panel := actions.foldl act p

@[simp] theorem run_nil (p : Panel) : p.run [] = p := rfl

@[simp] theorem run_cons (p : Panel) (a : Action) (actions : List Action) :
    p.run (a :: actions) = (p.act a).run actions := rfl

theorem eq_run_of_getElem?_history {p q : Panel} {actions : List Action} {i : ℕ}
    (h : (p.history actions)[i]? = some q) : q = p.run (actions.take i) := by
  induction actions generalizing p i with
  | nil =>
    cases i with
    | zero => exact (Option.some.inj h).symm
    | succ i => cases h
  | cons a actions ih =>
    cases i with
    | zero => exact (Option.some.inj h).symm
    | succ i => exact ih h

/-! ## Events -/

/-- What an action does to the outputs. -/
inductive Event where
  | cleared
  | evaluated (verdict : Except EvalError Steps)

/-- An evaluation takes its text and its precision from the state in which it is asked for. -/
def event? (p : Panel) : Action → Option Event
  | .press .equals | .enter => some (.evaluated (evaluateSteps p.precision p.entry))
  | .apply text => some (.evaluated (evaluateSteps p.precision text))
  | .press .clearResults | .press .clearAll => some .cleared
  | _ => none

/-- The events of a run, each action taken in the state that the ones before it led to. -/
def events (p : Panel) (actions : List Action) : List Event :=
  ((p.history actions).zip actions).filterMap fun step => step.1.event? step.2

theorem events_cons (p : Panel) (a : Action) (actions : List Action) :
    p.events (a :: actions) = (p.event? a).toList ++ (p.act a).events actions := by
  rw [events, history, List.zip_cons_cons, List.filterMap_cons]
  cases p.event? a <;> rfl

/-- The verdicts since the outputs were last cleared. -/
def Event.record (verdicts : List (Except EvalError Steps)) : Event → List (Except EvalError Steps)
  | cleared => []
  | evaluated verdict => verdicts ++ [verdict]

def verdicts (events : List Event) : List (Except EvalError Steps) := events.foldl Event.record []

/-! ## Outputs -/

structure SameOutputs (p q : Panel) : Prop where
  result : p.result = q.result
  error : p.error = q.error
  tokens : p.tokens = q.tokens
  rpn : p.rpn = q.rpn

/-- All that an action can do to the outputs. -/
theorem act_outputs (p : Panel) (a : Action) :
    (p.event? a = none ∧ (p.act a).SameOutputs p) ∨
      (p.event? a = some .cleared ∧ (p.act a).SameOutputs initial) ∨
        ∃ verdict, p.event? a = some (.evaluated verdict) ∧ p.act a = p.display verdict := by
  cases p with
  | mk entry result error tokens rpn precision =>
    cases a with
    | press key =>
      cases key with
      | equals => exact Or.inr (Or.inr ⟨_, rfl, rfl⟩)
      | clearResults => exact Or.inr (Or.inl ⟨rfl, rfl, rfl, rfl, rfl⟩)
      | clearAll => exact Or.inr (Or.inl ⟨rfl, rfl, rfl, rfl, rfl⟩)
      | _ => exact Or.inl ⟨rfl, rfl, rfl, rfl, rfl⟩
    | enter => exact Or.inr (Or.inr ⟨_, rfl, rfl⟩)
    | apply text => exact Or.inr (Or.inr ⟨_, rfl, rfl⟩)
    | typePrecision digits =>
      refine Or.inl ⟨rfl, ?_⟩
      rw [act]
      split <;> exact ⟨rfl, rfl, rfl, rfl⟩
    | _ => exact Or.inl ⟨rfl, rfl, rfl, rfl, rfl⟩

/-- The message of an error. -/
def errorText : Except EvalError Steps → String
  | .ok _ => ""
  | .error err => err.message

/-- The outputs after these verdicts. -/
structure Shows (p : Panel) (verdicts : List (Except EvalError Steps)) : Prop where
  result : p.result =
    (verdicts.filterMap Except.toOption).getLast?.elim "" fun s => s.result.toText
  error : p.error = verdicts.getLast?.elim "" errorText
  tokens : p.tokens = (verdicts.getLast?.bind Except.toOption).elim "" Steps.tokens
  rpn : p.rpn = (verdicts.getLast?.bind Except.toOption).elim "" Steps.rpn

theorem shows_initial : initial.Shows [] := ⟨rfl, rfl, rfl, rfl⟩

theorem Shows.display {p : Panel} {verdicts : List (Except EvalError Steps)} (h : p.Shows verdicts)
    (verdict : Except EvalError Steps) : (p.display verdict).Shows (verdicts ++ [verdict]) := by
  cases verdict with
  | ok s => constructor <;> simp [Panel.display, errorText, Except.toOption]
  | error err =>
    -- The result stays, so the verdicts before still count.
    constructor
    · simpa [Panel.display, Except.toOption] using h.result
    all_goals simp [Panel.display, errorText, Except.toOption]

theorem Shows.of_sameOutputs {p q : Panel} {verdicts : List (Except EvalError Steps)}
    (h : p.Shows verdicts) (hq : q.SameOutputs p) : q.Shows verdicts :=
  ⟨hq.result.trans h.result, hq.error.trans h.error, hq.tokens.trans h.tokens, hq.rpn.trans h.rpn⟩

theorem Shows.act {p : Panel} {verdicts : List (Except EvalError Steps)} (h : p.Shows verdicts)
    (a : Action) : (p.act a).Shows ((p.event? a).elim verdicts (Event.record verdicts)) := by
  rcases act_outputs p a with ⟨hevent, hact⟩ | ⟨hevent, hact⟩ | ⟨verdict, hevent, hact⟩
  · rw [hevent]
    exact h.of_sameOutputs hact
  · rw [hevent]
    exact shows_initial.of_sameOutputs hact
  · rw [hevent, hact]
    exact h.display verdict

theorem Shows.run {p : Panel} {verdicts : List (Except EvalError Steps)} (h : p.Shows verdicts)
    (actions : List Action) :
    (p.run actions).Shows ((p.events actions).foldl Event.record verdicts) := by
  induction actions generalizing p verdicts with
  | nil => exact h
  | cons a actions ih =>
    have hstep := ih (h.act a)
    rw [run_cons, events_cons, List.foldl_append]
    cases hevent : p.event? a with
    | none => simpa [hevent] using hstep
    | some event => simpa [hevent] using hstep

/-! ## Inputs -/

/-- Two states that differ in their outputs at most. -/
structure SameInputs (p q : Panel) : Prop where
  entry : p.entry = q.entry
  precision : p.precision = q.precision

theorem SameInputs.display {p q : Panel} (h : p.SameInputs q) (v w : Except EvalError Steps) :
    (p.display v).SameInputs (q.display w) := by
  cases v <;> cases w <;> exact ⟨h.entry, h.precision⟩

theorem SameInputs.act {p q : Panel} (h : p.SameInputs q) (a : Action) :
    (p.act a).SameInputs (q.act a) := by
  cases p with
  | mk entry result error tokens rpn precision =>
    cases q with
    | mk entry' result' error' tokens' rpn' precision' =>
      obtain rfl : entry = entry' := h.entry
      obtain rfl : precision = precision' := h.precision
      cases a with
      | press key =>
        cases key with
        | equals => exact h.display _ _
        | _ => exact ⟨rfl, rfl⟩
      | enter => exact h.display _ _
      | apply text => exact h.display _ _
      | typePrecision digits =>
        rw [Panel.act, Panel.act]
        split <;> exact ⟨rfl, rfl⟩
      | _ => exact ⟨rfl, rfl⟩

theorem SameInputs.run {p q : Panel} (h : p.SameInputs q) (actions : List Action) :
    (p.run actions).SameInputs (q.run actions) := by
  induction actions generalizing p q with
  | nil => exact h
  | cons a actions ih => exact ih (h.act a)

/-! ## Displays -/

/-- In every state of a run the outputs are those of the evaluations since they were last cleared,
each of the text and at the precision of its moment, and the precision is within its bounds. Entry
and precision are the same after a run whatever the outputs were before it. -/
theorem outputs_of_history :
    (∀ (actions : List Action) (i : ℕ) (p : Panel), (initial.history actions)[i]? = some p →
      p.Shows (verdicts (initial.events (actions.take i))) ∧
      1 ≤ p.precision.digits ∧ p.precision.digits ≤ 200) ∧
    ∀ (p q : Panel) (actions : List Action), p.SameInputs q →
      (p.run actions).SameInputs (q.run actions) := by
  constructor
  · intro actions i p h
    rw [eq_run_of_getElem?_history h]
    exact ⟨shows_initial.run _, Precision.one_le _, Precision.le_max _⟩
  · exact fun p q actions h => h.run actions

/-- A product, then a division by zero that is not the entry, at another precision. -/
def failedRun : List Action :=
  [.setEntry "7*6", .enter, .setPrecision 500, .apply "5/0", .escape]

/-- The error keeps the last result and drops its steps. Without the two, the next evaluation would
find the same entry and precision. -/
theorem outputs_after_error :
    (initial.history failedRun)[5]? =
        some ⟨"", "42", "division par zéro", "", "", .clamp 200⟩ ∧
      (⟨"", "42", "division par zéro", "", "", .clamp 200⟩ : Panel).Shows
        (verdicts (initial.events failedRun)) ∧
      ((⟨"", "42", "division par zéro", "", "", .clamp 200⟩ : Panel).run [.enter]).SameInputs
        ((⟨"", "", "", "", "", .clamp 200⟩ : Panel).run [.enter]) := by
  have hreached : (initial.history failedRun)[5]? =
      some ⟨"", "42", "division par zéro", "", "", .clamp 200⟩ := by decide +kernel
  obtain ⟨hshows, hinputs⟩ := outputs_of_history
  exact ⟨hreached, (hshows failedRun 5 _ hreached).1, hinputs _ _ [.enter] ⟨rfl, rfl⟩⟩

end Panel

end ExactCalculator
