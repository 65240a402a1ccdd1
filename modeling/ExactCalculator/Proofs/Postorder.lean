import ExactCalculator.Proofs.Literal
import ExactCalculator.Proofs.Evaluation

/-!
# Exactly the postorder lists have values

Wherever a calculation has come, the tokens read so far are the postorder lists of some trees, one
after the other, and the values on the stack are those of the trees
(`Calculator.Reaches.exists_trees`). So a list that leaves one value is the postorder list of one
tree (`evalRpn_ok_iff_exists`), and every other list is an error.

Which error a tree has is read off its subterms in postorder: the first one with a fault of its own
decides (`Expression.eval_error_iff_first_fault`). Main statement: `calculation_of_postorder`.
-/

namespace ExactCalculator

/-! ## The first fault in postorder -/

namespace Expression

/-- The subterms in postorder, each after its operands. -/
def postorder : Expression → List Expression
  | number literal => [number literal]
  | signed s e => e.postorder ++ [signed s e]
  | binary op l r => l.postorder ++ r.postorder ++ [binary op l r]

/-- The token of a tree that comes last. -/
def root : Expression → Token
  | number literal => .number literal
  | signed s _ => .operator (.sign s)
  | binary op _ _ => .operator (.binary op)

/-- What is wrong at the root itself: a malformed literal, or a divisor with the value zero. -/
def fault? (p : Precision) : Expression → Option EvalError
  | number literal =>
    if isLiteral literal.toList then none else some (.malformedNumber literal)
  | binary .div _ r =>
    match r.eval p with
    | .ok v => if v.isZero then some .divisionByZero else none
    | .error _ => none
  | _ => none

theorem map_root_postorder (e : Expression) : e.postorder.map root = e.rpn := by
  induction e with
  | number literal => rfl
  | signed s e ih => simp [postorder, rpn, root, ih]
  | binary op l r ihl ihr => simp [postorder, rpn, root, ihl, ihr]

theorem fault?_number_eq_some_iff {p : Precision} {literal : String} {err : EvalError} :
    (number literal).fault? p = some err ↔ Decimal.parse literal = .error err := by
  rw [fault?, Decimal.parse_eq_error_iff]
  cases isLiteral literal.toList <;> simp [eq_comm]

/-- When the operands have values, a fault at the root is one of the operation. -/
theorem fault?_binary_eq_some_iff {p : Precision} {op : BinaryOperator} {l r : Expression}
    {a b : Decimal} {err : EvalError} (hr : r.eval p = .ok b) :
    (binary op l r).fault? p = some err ↔ op.apply p a b = .error err := by
  rw [BinaryOperator.apply_error_iff]
  cases op with
  | add | sub | mul => simp [fault?]
  | div =>
    simp only [fault?, hr, Option.ite_none_right_eq_some, Option.some.injEq, true_and]
    rw [and_comm, eq_comm (a := err)]

/-- Something that is found exactly when there is an error is not found beside a value. -/
theorem eq_none_of_eq_ok {x : Except EvalError Decimal} {found : Option EvalError} {v : Decimal}
    (h : ∀ err, x = .error err ↔ found = some err) (hx : x = .ok v) : found = none := by
  rw [Option.eq_none_iff_forall_ne_some]
  intro err herr
  rw [(h err).2 herr] at hx
  cases hx

/-- The error of a tree is the fault of the first subterm in postorder that has one. -/
theorem eval_error_iff_first_fault {p : Precision} {e : Expression} (err : EvalError) :
    e.eval p = .error err ↔ e.postorder.findSome? (fault? p) = some err := by
  induction e generalizing err with
  | number literal =>
    rw [postorder, List.findSome?_singleton, fault?_number_eq_some_iff, eval]
  | signed s e ih =>
    rw [eval_signed_error, ih, postorder, List.findSome?_append]
    simp [fault?]
  | binary op l r ihl ihr =>
    rw [eval_binary_error, postorder, List.findSome?_append, List.findSome?_append,
      List.findSome?_singleton]
    cases hl : l.eval p with
    | error errl => simp [(ihl errl).1 hl]
    | ok a =>
      cases hr : r.eval p with
      | error errr => simp [eq_none_of_eq_ok ihl hl, (ihr errr).1 hr]
      | ok b =>
        simp [eq_none_of_eq_ok ihl hl, eq_none_of_eq_ok ihr hr,
          fault?_binary_eq_some_iff (a := a) hr]

end Expression

open Expression

/-! ## The trees behind a stack of values -/

/-- The postorder lists of trees, one after the other. As on a stack, the latest tree comes
first. -/
def rpnOfTrees : List Expression → List Token
  | [] => []
  | e :: es => rpnOfTrees es ++ e.rpn

/-- What has been read is some trees, and the values on the stack are theirs. -/
theorem Calculator.Reaches.exists_trees {p : Precision} {tokens : List Token} {c : Calculator}
    (h : Calculator.start.Reaches p tokens c) :
    ∃ es, tokens = rpnOfTrees es ∧ List.Forall₂ (fun e v => e.eval p = .ok v) es c.values := by
  induction h with
  | refl => exact ⟨[], rfl, .nil⟩
  | push _ hpush ih =>
    obtain ⟨es, rfl, hvalues⟩ := ih
    rcases push_ok_iff.1 hpush with ⟨literal, v, rfl, hv, rfl⟩ | ⟨s, v, rest, rfl, hc, rfl⟩ |
      ⟨op, a, b, rest, r, rfl, hc, hr, rfl⟩
    · exact ⟨number literal :: es, rfl, .cons hv hvalues⟩
    · rw [hc] at hvalues
      cases hvalues with
      | @cons e _ es _ he hes =>
        refine ⟨signed s e :: es, ?_, .cons (eval_signed_ok.2 ⟨v, he, rfl⟩) hes⟩
        simp [rpnOfTrees, rpn]
    · rw [hc] at hvalues
      cases hvalues with
      | @cons right _ es _ hright hes =>
        cases hes with
        | @cons left _ es _ hleft hes =>
          refine ⟨binary op left right :: es, ?_,
            .cons (eval_binary_ok.2 ⟨a, b, hleft, hright, hr⟩) hes⟩
          simp [rpnOfTrees, rpn]

/-- Trees that all have values are read, and leave their values. -/
theorem Calculator.exists_reaches_trees {p : Precision} {es : List Expression}
    {vs : List Decimal} (h : List.Forall₂ (fun e v => e.eval p = .ok v) es vs) :
    ∃ c, Calculator.start.Reaches p (rpnOfTrees es) c ∧ c.values = vs := by
  induction h with
  | nil => exact ⟨start, .refl, rfl⟩
  | cons he _ ih =>
    obtain ⟨c, hc, rfl⟩ := ih
    obtain ⟨completed, hnext⟩ := exists_reaches_rpn he c
    exact ⟨_, reaches_append.2 ⟨c, hc, hnext⟩, rfl⟩

/-- The lists that have a value are the postorder lists of trees that have it. -/
theorem evalRpn_ok_iff_exists {p : Precision} {tokens : List Token} {v : Decimal} :
    evalRpn p tokens = .ok v ↔ ∃ e : Expression, e.rpn = tokens ∧ e.eval p = .ok v := by
  constructor
  · intro h
    obtain ⟨c, hc, hv⟩ := Calculator.evalRpn_ok_iff.1 h
    obtain ⟨es, rfl, hvalues⟩ := hc.exists_trees
    rw [hv] at hvalues
    cases hvalues with
    | @cons e _ es _ he hes =>
      cases hes
      exact ⟨e, rfl, he⟩
  · rintro ⟨e, rfl, he⟩
    rw [evalRpn_rpn, he]

/-- The postorder list of a tree has the value of the tree, or its error, which is that of the first
faulty subterm in the order of the tokens. Every other list is an error. So a list has a value
exactly when it is that of a tree, of only one, with this value. -/
theorem calculation_of_postorder (p : Precision) :
    (∀ e : Expression, evalRpn p e.rpn = e.eval p ∧ e.postorder.map root = e.rpn ∧
      ∀ err, evalRpn p e.rpn = .error err ↔ e.postorder.findSome? (fault? p) = some err) ∧
    (∀ tokens, (∀ e : Expression, e.rpn ≠ tokens) → ∃ err, evalRpn p tokens = .error err) ∧
    ∀ tokens v, evalRpn p tokens = .ok v ↔
      ∃ e : Expression, e.rpn = tokens ∧ (∀ e' : Expression, e'.rpn = tokens → e' = e) ∧
        e.eval p = .ok v := by
  refine ⟨?_, ?_, ?_⟩
  · intro e
    refine ⟨evalRpn_rpn p e, e.map_root_postorder, ?_⟩
    intro err
    rw [evalRpn_rpn, eval_error_iff_first_fault]
  · intro tokens hne
    cases h : evalRpn p tokens with
    | error err => exact ⟨err, rfl⟩
    | ok v =>
      obtain ⟨e, he, -⟩ := evalRpn_ok_iff_exists.1 h
      exact absurd he (hne e)
  · intro tokens v
    rw [evalRpn_ok_iff_exists]
    constructor
    · rintro ⟨e, rfl, he⟩
      exact ⟨e, rfl, fun e' h => rpn_injective h, he⟩
    · rintro ⟨e, hrpn, -, he⟩
      exact ⟨e, hrpn, he⟩

/-- Two numbers side by side are the list of no tree. -/
theorem two_values_rejected :
    (∀ e : Expression, e.rpn ≠ [.number "1", .number "2"]) ∧
      ∃ err, evalRpn .standard [.number "1", .number "2"] = .error err := by
  have hne : ∀ e : Expression, e.rpn ≠ [.number "1", .number "2"] := by
    intro e h
    have hlast := congrArg List.getLast? h
    cases e with
    | number literal => simp [rpn] at h
    | signed s e => simp [rpn] at hlast
    | binary op l r => simp [rpn] at hlast
  exact ⟨hne, (calculation_of_postorder .standard).2.1 _ hne⟩

end ExactCalculator
