import ExactCalculator.Proofs.StandardReading

/-!
# Which texts are accepted

A text is accepted when it has a value or divides by zero. The converter never asks whether a
number or an opening parenthesis stands where a value is expected, nor whether a closing one stands
after a value, and the number of values left at the end does not always tell. So `2()` has the
value two. Apart from texts with such a misplaced token exactly the infix expressions are accepted:
`isInfixText_iff_isAccepted`.

A converter that has read well-placed tokens up to some place has read them as unfinished phrases,
one for each open parenthesis (`Unfinished`, `Awaiting`), and at the end as one expression
(`isInfix_of_toRpn`).
-/

namespace ExactCalculator

open Converter

/-! ## Texts -/

/-- The text has a value, or it fails by dividing by zero only. -/
def IsAccepted (p : Precision) (text : String) : Prop :=
  (∃ v, evaluate p text = .ok v) ∨ evaluate p text = .error .divisionByZero

/-- The trimmed text is read as tokens that are an infix expression. -/
def IsInfixText (text : String) : Prop :=
  ∃ tokens, Token.scan (Text.trim text.toList) = .ok tokens ∧ IsInfix .expression tokens

/-- The text is read as tokens of which some number, opening or closing parenthesis does not fit
its place. -/
def HasMisplacedToken (text : String) : Prop :=
  ∃ tokens, Token.tokenize text = .ok tokens ∧ wellPlaced .start tokens = false

/-! ## Extending a phrase -/

theorem IsInfix.expression_of_factor {ts : List Token} (h : IsInfix .factor ts) :
    IsInfix .expression ts := by
  obtain ⟨e, h⟩ := h
  exact ⟨e, .ofTerm (.ofFactor h)⟩

theorem IsInfix.append_binary {ts us : List Token} (hts : IsInfix .expression ts)
    (hus : IsInfix .factor us) (op : BinaryOperator) :
    IsInfix .expression (ts ++ .operator (.binary op) :: us) := by
  obtain ⟨a, ha⟩ := hts
  obtain ⟨b, hb⟩ := hus
  -- a product belongs to the last term of the expression, a sum to the whole
  have hproduct : op = .mul ∨ op = .div →
      IsInfix .expression (ts ++ .operator (.binary op) :: us) := by
    intro hop
    cases ha with
    | sum hop' ha' hc =>
      have hsum := Infix.sum hop' ha' (.product hop hc hb)
      rw [List.append_assoc, List.cons_append]
      exact ⟨_, hsum⟩
    | ofTerm ha => exact ⟨_, .ofTerm (.product hop ha hb)⟩
  cases op with
  | add => exact ⟨_, .sum (Or.inl rfl) ha (.ofFactor hb)⟩
  | sub => exact ⟨_, .sum (Or.inr rfl) ha (.ofFactor hb)⟩
  | mul => exact hproduct (Or.inl rfl)
  | div => exact hproduct (Or.inr rfl)

theorem IsInfix.signed {ts : List Token} {op : BinaryOperator} {s : Sign}
    (hts : IsInfix .factor ts) (hs : (Operator.binary op).asSign? = some s) :
    IsInfix .factor (.operator (.binary op) :: ts) := by
  obtain ⟨a, ha⟩ := hts
  cases op with
  | add => exact ⟨_, .plus ha⟩
  | sub => exact ⟨_, .minus ha⟩
  | mul | div => cases hs

theorem IsInfix.group {ts : List Token} (hts : IsInfix .expression ts) :
    IsInfix .factor (.opening :: (ts ++ [.closing])) := by
  obtain ⟨a, ha⟩ := hts
  exact ⟨a, .group ha⟩

/-! ## Unfinished phrases -/

/-- With `depth` parentheses open, the tokens end with a whole expression after the innermost one,
and a factor in place of this parenthesis and its inside would leave the rest alike. -/
def Unfinished : Nat → List Token → Prop
  | 0, ts => IsInfix .expression ts
  | depth + 1, ts => ∃ outer inner, ts = outer ++ .opening :: inner ∧ IsInfix .expression inner ∧
      ∀ f, IsInfix .factor f → Unfinished depth (outer ++ f)

/-- Only a factor is missing. -/
def Awaiting (depth : Nat) (ts : List Token) : Prop :=
  ∀ f, IsInfix .factor f → Unfinished depth (ts ++ f)

theorem Awaiting.opening {depth : Nat} {ts : List Token} (h : Awaiting depth ts) :
    Awaiting (depth + 1) (ts ++ [.opening]) := by
  intro f hf
  refine ⟨ts, f, ?_, hf.expression_of_factor, h⟩
  rw [List.append_assoc, List.singleton_append]

theorem Awaiting.sign {depth : Nat} {ts : List Token} (h : Awaiting depth ts)
    {op : BinaryOperator} {s : Sign} (hs : (Operator.binary op).asSign? = some s) :
    Awaiting depth (ts ++ [.operator (.binary op)]) := by
  intro f hf
  rw [List.append_assoc, List.singleton_append]
  exact h _ (hf.signed hs)

theorem Unfinished.closing {depth : Nat} {ts : List Token} (h : Unfinished (depth + 1) ts) :
    Unfinished depth (ts ++ [.closing]) := by
  obtain ⟨outer, inner, rfl, hinner, houter⟩ := h
  rw [List.append_assoc, List.cons_append]
  exact houter _ hinner.group

theorem Unfinished.binary {depth : Nat} {ts : List Token} (h : Unfinished depth ts)
    (op : BinaryOperator) : Awaiting depth (ts ++ [.operator (.binary op)]) := by
  intro f hf
  rw [List.append_assoc, List.singleton_append]
  cases depth with
  | zero => exact IsInfix.append_binary h hf op
  | succ depth =>
    obtain ⟨outer, inner, rfl, hinner, houter⟩ := h
    refine ⟨outer, inner ++ .operator (.binary op) :: f, ?_, hinner.append_binary hf op, houter⟩
    rw [List.append_assoc, List.cons_append]

/-! ## Reading well-placed tokens -/

/-- The converter has read the tokens as unfinished phrases, of which the innermost is whole unless
a value is expected. -/
def Converter.Parses (c : Converter) (ts : List Token) : Prop :=
  match c.position.expectsValue with
  | true => Awaiting c.enclosing.length ts
  | false => Unfinished c.enclosing.length ts

theorem Converter.Parses.awaiting {c : Converter} {ts : List Token} (h : c.Parses ts)
    (hp : c.position.expectsValue = true) : Awaiting c.enclosing.length ts := by
  rw [Parses, hp] at h
  exact h

theorem Converter.Parses.unfinished {c : Converter} {ts : List Token} (h : c.Parses ts)
    (hp : c.position.expectsValue = false) : Unfinished c.enclosing.length ts := by
  rw [Parses, hp] at h
  exact h

theorem Converter.parses_start : start.Parses [] := by
  intro f hf
  exact hf.expression_of_factor

/-- One well-placed token that a text can spell keeps the phrases. -/
theorem Converter.Parses.push {c next : Converter} {ts : List Token} {token : Token}
    (h : c.Parses ts) (hpush : c.push token = .ok next) (hplace : c.position.admits token = true)
    (hwritten : token.IsWritten) : next.Parses (ts ++ [token]) := by
  rcases push_ok_iff.1 hpush with ⟨literal, rfl, rfl⟩ | ⟨rfl, rfl⟩ |
    ⟨outer, enclosing, rfl, henc, rfl⟩ | ⟨read, op, rfl, hread, rfl⟩
  · exact h.awaiting hplace _ ⟨_, .number hwritten⟩
  · exact (h.awaiting hplace).opening
  · have hend := h.unfinished (by simpa [Position.admits] using hplace)
    rw [henc] at hend
    exact hend.closing
  · cases read with
    | sign s => exact hwritten.elim
    | binary op' =>
      cases hp : c.position.expectsValue with
      | false => exact (h.unfinished hp).binary op'
      | true =>
        cases hs : (Operator.binary op').asSign? with
        | some s => exact (h.awaiting hp).sign hs
        | none => simp [Position.resolve, hp, hs] at hread

theorem Converter.Parses.run {c : Converter} {ts tokens rpn : List Token} (h : c.Parses ts)
    (hrun : (c.run tokens).verdict = .ok rpn) (hplace : wellPlaced c.position tokens = true)
    (hwritten : ∀ token ∈ tokens, token.IsWritten) : IsInfix .expression (ts ++ tokens) := by
  induction tokens generalizing c ts with
  | nil =>
    obtain ⟨hposition, henclosing, -⟩ := finish_ok_iff.1 hrun
    have hend := h.unfinished hposition
    rw [henclosing] at hend
    rw [List.append_nil]
    exact hend
  | cons token tokens ih =>
    rw [wellPlaced, Bool.and_eq_true] at hplace
    cases hpush : c.push token with
    | error err => simp [Converter.run, hpush] at hrun
    | ok next =>
      rw [run_cons_ok hpush] at hrun
      have hnext := h.push hpush hplace.1 (hwritten token (by simp))
      have hrest : wellPlaced next.position tokens = true := by
        rw [position_of_push hpush]
        exact hplace.2
      have hall := ih hnext hrun hrest fun t ht => hwritten t (by simp [ht])
      rwa [List.append_assoc, List.singleton_append] at hall

/-- Well-placed tokens of a text that can be converted are an infix expression. -/
theorem isInfix_of_toRpn {tokens rpn : List Token} (h : toRpn tokens = .ok rpn)
    (hplace : wellPlaced .start tokens = true) (hwritten : ∀ token ∈ tokens, token.IsWritten) :
    IsInfix .expression tokens := by
  rw [toRpn, convert_eq_run (ne_nil_of_toRpn h)] at h
  exact parses_start.run h hplace hwritten

/-! ## Texts that are accepted -/

theorem Infix.wellPlaced {tokens : List Token} {e : Expression}
    (h : Infix .expression tokens e) : wellPlaced .start tokens = true := by
  obtain ⟨next, -, hrun⟩ := @Infix.wellPlaced_append _ _ _ h .start rfl
  have hend := hrun []
  rw [List.append_nil] at hend
  rw [hend]
  rfl

theorem isInfixText_iff_tokenize {text : String} : IsInfixText text ↔
    ∃ tokens, Token.tokenize text = .ok tokens ∧ IsInfix .expression tokens := by
  rw [IsInfixText, Token.scan_trim]
  rfl

theorem Infix.isAccepted {text : String} {tokens : List Token} {e : Expression}
    (h : Infix .expression tokens e) (htokens : Token.tokenize text = .ok tokens)
    (p : Precision) : IsAccepted p text := by
  rw [IsAccepted, h.evaluate_eq_eval htokens p]
  cases heval : e.eval p with
  | ok v => exact Or.inl ⟨v, rfl⟩
  | error err =>
    obtain ⟨rfl, -⟩ := (h.eval_error_iff p err).1 heval
    exact Or.inr rfl

/-- A text that is not accepted fails with a fault of writing. -/
theorem isSyntax_of_not_isAccepted {p : Precision} {text : String} (h : ¬ IsAccepted p text) :
    ∃ err, evaluate p text = .error err ∧ err.isSyntax = true := by
  cases heval : evaluate p text with
  | ok v => exact absurd (Or.inl ⟨v, heval⟩) h
  | error err =>
    refine ⟨err, rfl, ?_⟩
    cases err with
    | divisionByZero => exact absurd (Or.inr heval) h
    | _ => rfl

/-- The infix expressions are the accepted texts without a misplaced token. So with every token in
its place a text outside the grammar fails with a fault of writing. -/
theorem isInfixText_iff_isAccepted (p : Precision) (text : String) :
    (IsInfixText text ↔ IsAccepted p text ∧ ¬ HasMisplacedToken text) ∧
      (¬ IsInfixText text → ¬ HasMisplacedToken text →
        ∃ err, evaluate p text = .error err ∧ err.isSyntax = true) := by
  have hiff : IsInfixText text ↔ IsAccepted p text ∧ ¬ HasMisplacedToken text := by
    rw [isInfixText_iff_tokenize]
    constructor
    · rintro ⟨tokens, htokens, e, h⟩
      refine ⟨h.isAccepted htokens p, ?_⟩
      rintro ⟨tokens', htokens', hplace⟩
      obtain rfl := Except.ok.inj (htokens.symm.trans htokens')
      rw [h.wellPlaced] at hplace
      cases hplace
    · rintro ⟨haccepted, hplaced⟩
      obtain ⟨tokens, rpn, htokens, hrpn⟩ := stages_of_evaluate haccepted
      have hplace : wellPlaced .start tokens = true := by
        by_contra hne
        exact hplaced ⟨tokens, htokens, Bool.eq_false_iff.2 hne⟩
      exact ⟨tokens, htokens,
        isInfix_of_toRpn hrpn hplace (Token.isWritten_of_mem_scan htokens)⟩
  refine ⟨hiff, ?_⟩
  intro hinfix hplaced
  apply isSyntax_of_not_isAccepted
  intro haccepted
  exact hinfix (hiff.2 ⟨haccepted, hplaced⟩)

/-- An empty group after a number is accepted. -/
theorem juxtaposed_group_accepted :
    evaluate .standard "2()" = .ok ⟨2, 0⟩ ∧ ¬ IsInfixText "2()" := by
  refine ⟨by decide +kernel, ?_⟩
  rw [isInfixText_iff_tokenize]
  rintro ⟨tokens, htokens, e, h⟩
  have hread : Token.tokenize "2()" = .ok [.number "2", .opening, .closing] := by decide +kernel
  obtain rfl := Except.ok.inj (htokens.symm.trans hread)
  have hplace := h.wellPlaced
  cases hplace

end ExactCalculator
