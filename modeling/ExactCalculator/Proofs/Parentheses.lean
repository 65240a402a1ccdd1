import ExactCalculator.Proofs.Postorder

/-!
# Expressions in parentheses

An accepted text in parentheses may stand wherever a value is expected. In the converter nothing
that is read inside touches what waits outside (`Converter.Frames.run`), and the closing parenthesis
releases what the end of the text would release (`Converter.run_group`). In the calculator the list
of the text, being that of a tree, puts one value on top of those that are there. Main statement:
`evaluation_of_parenthesized`.
-/

namespace ExactCalculator

/-- The tokens in parentheses. -/
def Token.group (tokens : List Token) : List Token := .opening :: (tokens ++ [.closing])

/-- The text in parentheses. -/
def parenthesized (text : String) : String := "(" ++ text ++ ")"

/-! ## Converting -/

namespace Converter

/-- The second converter does what the first one does, after some output and inside some
parentheses. -/
structure Frames (output : List Token) (enclosing : List (List Operator)) (c d : Converter) :
    Prop where
  output : d.output = c.output ++ output
  waiting : d.waiting = c.waiting
  enclosing : d.enclosing = c.enclosing ++ enclosing
  position : d.position.expectsValue = c.position.expectsValue

theorem write_output_append (xs ys : List Token) (released : List Operator) :
    write (xs ++ ys) released = write xs released ++ ys := by
  simp [write]

section

variable {c d next : Converter} {output : List Token} {enclosing : List (List Operator)}

theorem Frames.push (h : Frames output enclosing c d) {token : Token}
    (hpush : c.push token = .ok next) :
    ∃ next', d.push token = .ok next' ∧ Frames output enclosing next next' := by
  rcases push_ok_iff.1 hpush with ⟨literal, rfl, rfl⟩ | ⟨rfl, rfl⟩ |
    ⟨outer, rest, rfl, hc, rfl⟩ | ⟨read, op, rfl, hop, rfl⟩
  · refine ⟨_, rfl, ?_, h.waiting, h.enclosing, rfl⟩
    rw [h.output, List.cons_append]
  · refine ⟨_, rfl, h.output, rfl, ?_, rfl⟩
    rw [h.waiting, h.enclosing, List.cons_append]
  · have hd : d.enclosing = outer :: (rest ++ enclosing) := by
      rw [h.enclosing, hc, List.cons_append]
    refine ⟨_, push_ok_iff.2 (Or.inr (Or.inr (Or.inl ⟨outer, _, rfl, hd, rfl⟩))), ?_, rfl, rfl, rfl⟩
    rw [h.output, h.waiting, write_output_append]
  · have hresolve : d.position.resolve read = .ok op := by
      rw [Position.resolve, h.position]
      exact hop
    refine ⟨_, push_ok_iff.2 (Or.inr (Or.inr (Or.inr ⟨read, op, rfl, hresolve, rfl⟩))), ?_, ?_,
      h.enclosing, rfl⟩
    · simp only [pushOperator, h.output, h.waiting, write_output_append]
    · simp only [pushOperator, h.waiting]

/-- A run that comes to its end does so in the frame, with the rest still to be read. -/
theorem Frames.run (h : Frames output enclosing c d) {tokens rpn : List Token}
    (hrun : (c.run tokens).verdict = .ok rpn) :
    ∃ last last' : Converter, Frames output enclosing last last' ∧ last.finish = .ok rpn ∧
      ∀ rest, d.run (tokens ++ rest) = last'.run rest := by
  induction tokens generalizing c d with
  | nil => exact ⟨c, d, h, hrun, fun _ => rfl⟩
  | cons token tokens ih =>
    cases hpush : c.push token with
    | error err => simp [Converter.run, hpush] at hrun
    | ok next =>
      rw [run_cons_ok hpush] at hrun
      obtain ⟨next', hpush', hnext⟩ := h.push hpush
      obtain ⟨last, last', hlast, hfinish, hrest⟩ := ih hnext hrun
      refine ⟨last, last', hlast, hfinish, ?_⟩
      intro rest
      rw [List.cons_append, run_cons_ok hpush', hrest]

end

/-- A group of tokens that can be converted only appends what they are converted to. -/
theorem run_group {tokens rpn : List Token} (h : toRpn tokens = .ok rpn) (c : Converter) :
    ∃ next : Converter, next.output = rpn.reverse ++ c.output ∧ next.waiting = c.waiting ∧
      next.enclosing = c.enclosing ∧ next.position = .afterClosing ∧
      ∀ rest, c.run (Token.group tokens ++ rest) = next.run rest := by
  rw [toRpn, convert_eq_run (ne_nil_of_toRpn h)] at h
  have hframe : Frames c.output (c.waiting :: c.enclosing) start
      { c with waiting := [], enclosing := c.waiting :: c.enclosing, position := .afterOpening } :=
    ⟨rfl, rfl, rfl, rfl⟩
  obtain ⟨last, last', hlast, hfinish, hrun⟩ := hframe.run h
  obtain ⟨-, henclosing, rfl⟩ := finish_ok_iff.1 hfinish
  have hopen : last'.enclosing = c.waiting :: c.enclosing := by
    rw [hlast.enclosing, henclosing, List.nil_append]
  refine ⟨{ last' with output := write last'.output last'.waiting, waiting := c.waiting,
                       enclosing := c.enclosing, position := .afterClosing }, ?_, rfl, rfl, rfl, ?_⟩
  · rw [List.reverse_reverse, hlast.output, hlast.waiting, write_output_append]
  · intro rest
    have hclose := push_ok_iff.2 (Or.inr (Or.inr (Or.inl ⟨_, _, rfl, hopen, rfl⟩)))
    rw [Token.group, List.cons_append, List.append_assoc, run_cons_ok rfl, hrun,
      List.singleton_append, run_cons_ok hclose]

end Converter

open Converter

section

variable {ts us rpn rpn' : List Token}

/-- Tokens before a group leave the converter waiting. The end of the group then releases what
waits. -/
theorem toRpn_append_group {before : List Token} {c : Converter}
    (hbefore : ∀ rest, start.run (before ++ rest) = c.run rest) (hc : c.enclosing = [])
    (h : toRpn ts = .ok rpn) :
    toRpn (before ++ Token.group ts) = .ok (write (rpn.reverse ++ c.output) c.waiting).reverse := by
  obtain ⟨next, ho, hw, he, hp, hrun⟩ := run_group h c
  have hfinish : next.finish = .ok (write (rpn.reverse ++ c.output) c.waiting).reverse :=
    finish_ok_iff.2 ⟨by rw [hp]; rfl, he.trans hc, by rw [ho, hw]⟩
  rw [toRpn, convert_eq_run (by simp [Token.group]), hbefore, ← List.append_nil (Token.group ts),
    hrun, run, hfinish]

theorem toRpn_group (h : toRpn ts = .ok rpn) : toRpn (Token.group ts) = .ok rpn := by
  have hgroup := toRpn_append_group (c := start) (fun rest => by rw [List.nil_append]) rfl h
  simpa [start, write] using hgroup

theorem toRpn_signed_group {op : BinaryOperator} {s : Sign}
    (hs : (Operator.binary op).asSign? = some s) (h : toRpn ts = .ok rpn) :
    toRpn (.operator (.binary op) :: Token.group ts) = .ok (rpn ++ [.operator (.sign s)]) := by
  have hpush := push_sign (c := start) rfl hs
  have hgroup := toRpn_append_group (fun rest => by
    rw [List.singleton_append, run_cons_ok hpush]) rfl h
  simpa [start, write] using hgroup

theorem toRpn_binary_groups (op : BinaryOperator) (h : toRpn ts = .ok rpn)
    (h' : toRpn us = .ok rpn') :
    toRpn (Token.group ts ++ .operator (.binary op) :: Token.group us) =
      .ok (rpn ++ rpn' ++ [.operator (.binary op)]) := by
  obtain ⟨mid, ho, hw, he, hp, hrun⟩ := run_group h start
  have hpush : mid.push (.operator (.binary op)) = .ok (mid.pushOperator (.binary op)) := by
    simp [push, Position.resolve, hp, Position.expectsValue, Except.map]
  have hbefore : ∀ rest, start.run (Token.group ts ++ [.operator (.binary op)] ++ rest) =
      (mid.pushOperator (.binary op)).run rest := by
    intro rest
    rw [List.append_assoc, hrun, List.singleton_append, run_cons_ok hpush]
  have hgroup := toRpn_append_group hbefore he h'
  rw [List.append_assoc, List.singleton_append] at hgroup
  simpa [pushOperator, write, ho, hw, start] using hgroup

end

/-! ## Reading -/

namespace Token

theorem scan_parenthesized {text : String} {ts : List Token} (h : tokenize text = .ok ts)
    (ds : List Char) :
    scan ((parenthesized text).toList ++ ds) = (scan ds).map (group ts ++ ·) := by
  have hlist : (parenthesized text).toList ++ ds = '(' :: (text.toList ++ ')' :: ds) := by
    simp [parenthesized]
  rw [hlist, scan_symbol rfl, scan_append_symbol rfl h]
  cases scan ds <;> simp [Except.map, group]

theorem tokenize_parenthesized {text : String} {ts : List Token} (h : tokenize text = .ok ts) :
    tokenize (parenthesized text) = .ok (group ts) := by
  have hscan := scan_parenthesized h []
  rw [List.append_nil, scan, Except.map, List.append_nil] at hscan
  exact hscan

theorem tokenize_symbol_append {text : String} {ts : List Token} (op : BinaryOperator)
    (h : tokenize text = .ok ts) :
    tokenize ((Operator.binary op).symbol ++ text) = .ok (.operator (.binary op) :: ts) := by
  obtain ⟨c, hspelled, hc⟩ := exists_spelling op
  rw [tokenize] at h ⊢
  rw [String.toList_append, hspelled, List.singleton_append, scan_symbol hc, h]
  rfl

theorem tokenize_parenthesized_append {a b : String} {ts us : List Token}
    (ha : tokenize a = .ok ts) (hb : tokenize b = .ok us) :
    tokenize (parenthesized a ++ b) = .ok (group ts ++ us) := by
  rw [tokenize] at hb ⊢
  rw [String.toList_append, scan_parenthesized ha, hb]
  rfl

/-! ## Displaying -/

theorem format_append {ts us : List Token} (hts : ts ≠ []) (hus : us ≠ []) :
    format (ts ++ us) = format ts ++ " " ++ format us := by
  rw [format, List.map_append, String.intercalate_append_of_ne_nil (by simpa using hts)
    (by simpa using hus)]
  rfl

theorem format_singleton (token : Token) : format [token] = token.text := by
  simp [format]

theorem format_cons (token : Token) {ts : List Token} (hts : ts ≠ []) :
    format (token :: ts) = token.text ++ " " ++ format ts := by
  have happ := format_append (List.cons_ne_nil token []) hts
  rwa [List.singleton_append, format_singleton] at happ

theorem format_group {ts : List Token} (hts : ts ≠ []) :
    format (group ts) = "( " ++ format ts ++ " )" := by
  rw [group, format_cons _ (by simp), format_append hts (by simp), format_singleton]
  simp only [text, String.append_assoc]
  rfl

end Token

open Token

/-! ## Evaluating -/

section

variable {p : Precision}

/-- An accepted text is converted to the list of a tree. -/
theorem exists_expression_of_evaluateSteps {text : String} {s : Steps}
    (h : evaluateSteps p text = .ok s) :
    ∃ tokens, ∃ e : Expression, tokenize text = .ok tokens ∧ toRpn tokens = .ok e.rpn ∧
      e.eval p = .ok s.result ∧ s.tokens = format tokens ∧ s.rpn = format e.rpn := by
  have hvalue : evaluate p text = .ok s.result := by
    rw [evaluate, h]
    rfl
  obtain ⟨tokens, rpn, htokens, hrpn⟩ := stages_of_evaluate (Or.inl ⟨_, hvalue⟩)
  rw [evaluateSteps_of_toRpn htokens hrpn, map_eq_ok_iff] at h
  obtain ⟨result, hresult, rfl⟩ := h
  obtain ⟨e, rfl, he⟩ := evalRpn_ok_iff_exists.1 hresult
  exact ⟨tokens, e, htokens, hrpn, he, rfl, rfl⟩

variable {a b : String} {s t : Steps}

theorem evaluateSteps_parenthesized (h : evaluateSteps p a = .ok s) :
    evaluateSteps p (parenthesized a) = .ok ⟨s.result, "( " ++ s.tokens ++ " )", s.rpn⟩ := by
  obtain ⟨tokens, e, htokens, hrpn, he, hst, hsr⟩ := exists_expression_of_evaluateSteps h
  rw [evaluateSteps_of_toRpn (tokenize_parenthesized htokens) (toRpn_group hrpn), evalRpn_rpn, he,
    format_group (ne_nil_of_toRpn hrpn), ← hst, ← hsr]
  rfl

theorem evaluate_signed_parenthesized (op : BinaryOperator) {sign : Sign}
    (hsign : (Operator.binary op).asSign? = some sign) (h : evaluateSteps p a = .ok s) :
    evaluate p ((Operator.binary op).symbol ++ parenthesized a) = .ok (sign.apply p s.result) := by
  obtain ⟨tokens, e, htokens, hrpn, he, -, -⟩ := exists_expression_of_evaluateSteps h
  have hsigned := evalRpn_rpn p (.signed sign e)
  rw [Expression.eval_signed, he] at hsigned
  rw [evaluate_of_toRpn (tokenize_symbol_append op (tokenize_parenthesized htokens))
    (toRpn_signed_group hsign hrpn)]
  exact hsigned

theorem evaluateSteps_binary_parenthesized (op : BinaryOperator) (ha : evaluateSteps p a = .ok s)
    (hb : evaluateSteps p b = .ok t) :
    evaluateSteps p (parenthesized a ++ ((Operator.binary op).symbol ++ parenthesized b)) =
      (op.apply p s.result t.result).map fun result =>
        ⟨result,
          "( " ++ s.tokens ++ " )" ++ " " ++ (Operator.binary op).symbol ++ " " ++
            "( " ++ t.tokens ++ " )",
          s.rpn ++ " " ++ t.rpn ++ " " ++ (Operator.binary op).symbol⟩ := by
  obtain ⟨ts, e, hts, hrpn, he, hst, hsr⟩ := exists_expression_of_evaluateSteps ha
  obtain ⟨us, e', hus, hrpn', he', htt, htr⟩ := exists_expression_of_evaluateSteps hb
  have hvalue : evalRpn p (e.rpn ++ e'.rpn ++ [.operator (.binary op)]) =
      op.apply p s.result t.result := by
    have hbinary := evalRpn_rpn p (.binary op e e')
    rw [Expression.eval_binary, he, he'] at hbinary
    exact hbinary
  have htokens : format (group ts ++ .operator (.binary op) :: group us) =
      "( " ++ s.tokens ++ " )" ++ " " ++ (Operator.binary op).symbol ++ " " ++
        "( " ++ t.tokens ++ " )" := by
    rw [format_append (by simp [group]) (by simp), format_cons _ (by simp [group]),
      format_group (ne_nil_of_toRpn hrpn), format_group (ne_nil_of_toRpn hrpn'), hst, htt, text]
    simp only [String.append_assoc]
  have hrpns : format (e.rpn ++ e'.rpn ++ [.operator (.binary op)]) =
      s.rpn ++ " " ++ t.rpn ++ " " ++ (Operator.binary op).symbol := by
    rw [format_append (by simp [e.rpn_ne_nil]) (by simp), format_append e.rpn_ne_nil e'.rpn_ne_nil,
      format_singleton, hsr, htr, text]
  rw [evaluateSteps_of_toRpn (tokenize_parenthesized_append hts
    (tokenize_symbol_append op (tokenize_parenthesized hus))) (toRpn_binary_groups op hrpn hrpn'),
    hvalue, htokens, hrpns]

theorem evaluate_parenthesized_error (h : evaluate p a = .error .divisionByZero) :
    evaluate p (parenthesized a) = .error .divisionByZero := by
  obtain ⟨tokens, rpn, htokens, hrpn⟩ := stages_of_evaluate (Or.inr h)
  rw [evaluate_of_toRpn htokens hrpn] at h
  rw [evaluate_of_toRpn (tokenize_parenthesized htokens) (toRpn_group hrpn), h]

end

/-- Every accepted text may be put in parentheses, whether it follows the grammar or not. The group
has the value and the conversion of the text, also under a plus sign, and a minus sign gives the
rounded opposite. Two groups around an operator give the result of the operator, converted one after
the other; they fail exactly when the second value is a divisor and zero. A text that divides by
zero does so in parentheses too. -/
theorem evaluation_of_parenthesized (p : Precision) (a b : String) :
    (∀ s, evaluateSteps p a = .ok s →
      evaluateSteps p (parenthesized a) = .ok ⟨s.result, "( " ++ s.tokens ++ " )", s.rpn⟩ ∧
      evaluate p ("+" ++ parenthesized a) = .ok s.result ∧
      evaluate p ("-" ++ parenthesized a) = .ok (s.result.neg.rounded p)) ∧
    (∀ s t, evaluateSteps p a = .ok s → evaluateSteps p b = .ok t → ∀ op : BinaryOperator,
      evaluateSteps p (parenthesized a ++ ((Operator.binary op).symbol ++ parenthesized b)) =
        (op.apply p s.result t.result).map (fun result =>
          ⟨result,
            "( " ++ s.tokens ++ " )" ++ " " ++ (Operator.binary op).symbol ++ " " ++
              "( " ++ t.tokens ++ " )",
            s.rpn ++ " " ++ t.rpn ++ " " ++ (Operator.binary op).symbol⟩) ∧
      ∀ err, op.apply p s.result t.result = .error err ↔
        err = .divisionByZero ∧ op = .div ∧ t.result.isZero = true) ∧
    (evaluate p a = .error .divisionByZero →
      evaluate p (parenthesized a) = .error .divisionByZero) := by
  refine ⟨?_, ?_, evaluate_parenthesized_error⟩
  · intro s hs
    exact ⟨evaluateSteps_parenthesized hs,
      evaluate_signed_parenthesized .add rfl hs, evaluate_signed_parenthesized .sub rfl hs⟩
  · intro s t hs ht op
    exact ⟨evaluateSteps_binary_parenthesized op hs ht, fun err => BinaryOperator.apply_error_iff⟩

/-- The texts `2()` and `2(-)` are no infix expressions, but have the values two and minus two. -/
theorem product_of_groups :
    evaluate .standard ("-" ++ parenthesized "2()") = .ok ⟨-2, 0⟩ ∧
      evaluateSteps .standard (parenthesized "2()" ++ ("*" ++ parenthesized "2(-)")) =
        .ok ⟨⟨-4, 0⟩, "( 2 ( ) ) * ( 2 ( - ) )", "2 2 u- *"⟩ ∧
      evaluate .standard (parenthesized "1/0") = .error .divisionByZero := by
  have h : evaluateSteps .standard "2()" = .ok ⟨⟨2, 0⟩, "2 ( )", "2"⟩ := by decide +kernel
  have h' : evaluateSteps .standard "2(-)" = .ok ⟨⟨-2, 0⟩, "2 ( - )", "2 u-"⟩ := by decide +kernel
  obtain ⟨hgroup, hgroups, -⟩ := evaluation_of_parenthesized .standard "2()" "2(-)"
  have hopposite := (hgroup _ h).2.2
  have hproduct := (hgroups _ _ h h' .mul).1
  have herror := (evaluation_of_parenthesized .standard "1/0" "1/0").2.2 (by decide +kernel)
  exact ⟨hopposite.trans (by decide +kernel), hproduct.trans (by decide +kernel), herror⟩

end ExactCalculator
