import ExactCalculator.Proofs.Runs

/-!
# Expressions as trees

An `Expression` has its literals at the leaves and its signs and binary operators inside;
parentheses leave no trace. Proved here, for every tree and precision:

* `Calculator.exists_reaches_rpn` and `Calculator.run_rpn_error`: reading the postorder list `rpn` of
  a tree puts its value `eval` on top of any stack, or stops with its error;
* `evalRpn_rpn`: the value of the list is the value of the tree;
* `Expression.rpn_injective`: the list determines the tree;
* `Expression.eval_error_iff`: with well-formed literals the only error is a division by zero, and
  it arises exactly when the right side of a division has the value zero.
-/

namespace ExactCalculator

inductive Expression where
  | number (literal : String)
  | signed (s : Sign) (operand : Expression)
  | binary (op : BinaryOperator) (left right : Expression)
  deriving DecidableEq, Repr

namespace Expression

/-- The tokens of a tree in postorder: each operator after its operands. -/
def rpn : Expression → List Token
  | number literal => [.number literal]
  | signed s e => e.rpn ++ [.operator (.sign s)]
  | binary op l r => l.rpn ++ r.rpn ++ [.operator (.binary op)]

/-- The value of a tree, operands evaluated from left to right. A literal is read exactly, a plus
sign changes nothing, and every other operation rounds its result to the precision. -/
def eval (p : Precision) : Expression → Except EvalError Decimal
  | number literal => Decimal.parse literal
  | signed .plus e => e.eval p
  | signed .minus e => do
    let v ← e.eval p
    return v.neg.rounded p
  | binary .add l r => do
    let a ← l.eval p
    let b ← r.eval p
    return a.add p b
  | binary .sub l r => do
    let a ← l.eval p
    let b ← r.eval p
    return a.sub p b
  | binary .mul l r => do
    let a ← l.eval p
    let b ← r.eval p
    return a.mul p b
  | binary .div l r => do
    let a ← l.eval p
    let b ← r.eval p
    match a.div? p b with
    | some q => return q
    | none => throw .divisionByZero

/-- The literals at the leaves, from left to right. -/
def literals : Expression → List String
  | number literal => [literal]
  | signed _ e => e.literals
  | binary _ l r => l.literals ++ r.literals

/-- The tree itself and all trees below it. -/
def subterms : Expression → List Expression
  | number literal => [number literal]
  | signed s e => signed s e :: e.subterms
  | binary op l r => binary op l r :: (l.subterms ++ r.subterms)

/-! ## Signs and binary operators, each as one case -/

theorem eval_signed (p : Precision) (s : Sign) (e : Expression) :
    (signed s e).eval p = (e.eval p).map (s.apply p) := by
  cases s with
  | plus => cases h : e.eval p <;> simp [eval, h, Except.map, Sign.apply]
  | minus => rfl

theorem eval_binary (p : Precision) (op : BinaryOperator) (l r : Expression) :
    (binary op l r).eval p = (do
      let a ← l.eval p
      let b ← r.eval p
      op.apply p a b) := by
  cases op with
  | add | sub | mul => rfl
  | div =>
    simp only [eval, BinaryOperator.apply]
    cases l.eval p with
    | error e => rfl
    | ok a =>
      cases r.eval p with
      | error e => rfl
      | ok b => cases h : a.div? p b <;> simp [bind, Except.bind, h] <;> rfl

theorem eval_signed_ok {p : Precision} {s : Sign} {e : Expression} {v : Decimal} :
    (signed s e).eval p = .ok v ↔ ∃ w, e.eval p = .ok w ∧ s.apply p w = v := by
  rw [eval_signed]
  cases e.eval p <;> simp [Except.map]

theorem eval_signed_error {p : Precision} {s : Sign} {e : Expression} {err : EvalError} :
    (signed s e).eval p = .error err ↔ e.eval p = .error err := by
  rw [eval_signed]
  cases e.eval p <;> simp [Except.map]

theorem eval_binary_ok {p : Precision} {op : BinaryOperator} {l r : Expression} {v : Decimal} :
    (binary op l r).eval p = .ok v ↔
      ∃ a b, l.eval p = .ok a ∧ r.eval p = .ok b ∧ op.apply p a b = .ok v := by
  rw [eval_binary]
  cases l.eval p <;> cases r.eval p <;> simp [bind, Except.bind]

/-- The left operand fails first, then the right one, then the operation. -/
theorem eval_binary_error {p : Precision} {op : BinaryOperator} {l r : Expression}
    {err : EvalError} :
    (binary op l r).eval p = .error err ↔
      l.eval p = .error err ∨ ∃ a, l.eval p = .ok a ∧
        (r.eval p = .error err ∨ ∃ b, r.eval p = .ok b ∧ op.apply p a b = .error err) := by
  rw [eval_binary]
  cases l.eval p <;> cases r.eval p <;> simp [bind, Except.bind]

end Expression

/-! ## The postorder list determines the tree -/

namespace Expression

theorem rpn_ne_nil (e : Expression) : e.rpn ≠ [] := by
  cases e <;> simp [rpn]

/-- A postorder list ends with the root of its tree, so the list can be read off backwards. -/
theorem rpn_append_inj {e e' : Expression} {before before' : List Token}
    (h : before ++ e.rpn = before' ++ e'.rpn) : before = before' ∧ e = e' := by
  induction e generalizing e' before before' with
  | number literal =>
    cases e' <;> simp only [rpn, ← List.append_assoc, List.append_singleton_inj, Token.number.injEq,
      reduceCtorEq, and_false] at h
    obtain ⟨rfl, rfl⟩ := h
    exact ⟨rfl, rfl⟩
  | signed s a ih =>
    cases e' <;> simp only [rpn, ← List.append_assoc, List.append_singleton_inj,
      Token.operator.injEq, Operator.sign.injEq, reduceCtorEq, and_false] at h
    obtain ⟨hbefore, rfl⟩ := h
    obtain ⟨rfl, rfl⟩ := ih hbefore
    exact ⟨rfl, rfl⟩
  | binary op l r ihl ihr =>
    cases e' <;> simp only [rpn, ← List.append_assoc, List.append_singleton_inj,
      Token.operator.injEq, Operator.binary.injEq, reduceCtorEq, and_false] at h
    obtain ⟨hoperands, rfl⟩ := h
    obtain ⟨hleft, rfl⟩ := ihr hoperands
    obtain ⟨rfl, rfl⟩ := ihl hleft
    exact ⟨rfl, rfl⟩

theorem rpn_injective {e e' : Expression} (h : e.rpn = e'.rpn) : e = e' :=
  (rpn_append_inj (show [] ++ e.rpn = [] ++ e'.rpn from h)).2

end Expression

/-! ## Calculating the postorder list -/

open Expression

namespace Calculator

/-- The list of a tree that has a value is read, and leaves this value. -/
theorem exists_reaches_rpn {p : Precision} {e : Expression} {v : Decimal}
    (h : e.eval p = .ok v) (c : Calculator) :
    ∃ completed, c.Reaches p e.rpn ⟨v :: c.values, completed⟩ := by
  induction e generalizing c v with
  | number literal =>
    exact ⟨_, Reaches.refl.push (push_ok_iff.2 (Or.inl ⟨literal, v, rfl, h, rfl⟩))⟩
  | signed s e ih =>
    obtain ⟨w, hw, rfl⟩ := eval_signed_ok.1 h
    obtain ⟨completed, hc⟩ := ih hw c
    exact ⟨_, hc.push (push_ok_iff.2 (Or.inr (Or.inl ⟨s, w, c.values, rfl, rfl, rfl⟩)))⟩
  | binary op l r ihl ihr =>
    obtain ⟨a, b, ha, hb, hv⟩ := eval_binary_ok.1 h
    obtain ⟨completed, hl⟩ := ihl ha c
    obtain ⟨completed', hr⟩ := ihr hb ⟨a :: c.values, completed⟩
    exact ⟨_, (reaches_append.2 ⟨_, hl, hr⟩).push
      (push_ok_iff.2 (Or.inr (Or.inr ⟨op, a, b, c.values, v, rfl, rfl, hv, rfl⟩)))⟩

/-- The list of a tree that has an error stops with it. -/
theorem run_rpn_error {p : Precision} {e : Expression} {err : EvalError}
    (h : e.eval p = .error err) (c : Calculator) (rest : List Token) :
    (c.run p (e.rpn ++ rest)).verdict = .error err := by
  induction e generalizing c rest with
  | number literal =>
    refine run_cons_error ?_ rest
    rw [eval] at h
    simp only [push, h]
  | signed s e ih =>
    rw [rpn, List.append_assoc]
    exact ih (eval_signed_error.1 h) c _
  | binary op l r ihl ihr =>
    rw [rpn, List.append_assoc, List.append_assoc]
    rcases eval_binary_error.1 h with hl | ⟨a, ha, hr | ⟨b, hb, hop⟩⟩
    · exact ihl hl c _
    · obtain ⟨completed, hleft⟩ := exists_reaches_rpn ha c
      rw [hleft.run_append]
      exact ihr hr _ _
    · obtain ⟨completed, hleft⟩ := exists_reaches_rpn ha c
      obtain ⟨completed', hright⟩ := exists_reaches_rpn hb ⟨a :: c.values, completed⟩
      rw [hleft.run_append, hright.run_append]
      refine run_cons_error ?_ rest
      simp only [push, hop]

end Calculator

/-- The value of the postorder list of a tree is the value of the tree. -/
theorem evalRpn_rpn (p : Precision) (e : Expression) : evalRpn p e.rpn = e.eval p := by
  cases h : e.eval p with
  | error err =>
    rw [evalRpn, calculate, ← List.append_nil e.rpn]
    exact Calculator.run_rpn_error h .start []
  | ok v =>
    obtain ⟨completed, hreaches⟩ := Calculator.exists_reaches_rpn h .start
    exact Calculator.evalRpn_ok_iff.2 ⟨_, hreaches, rfl⟩

/-! ## Errors -/

/-- A quotient is missing exactly when the divisor is zero. -/
theorem BinaryOperator.apply_error_iff {p : Precision} {op : BinaryOperator} {a b : Decimal}
    {err : EvalError} :
    op.apply p a b = .error err ↔ err = .divisionByZero ∧ op = .div ∧ b.isZero = true := by
  cases op with
  | add | sub | mul => simp [BinaryOperator.apply]
  | div =>
    have hdiv : a.div? p b = none ↔ b.isZero = true := by
      unfold Decimal.div?
      split
      · simp_all
      · split <;> simp_all
    simp only [BinaryOperator.apply]
    cases h : a.div? p b with
    | none => simp [hdiv.1 h, eq_comm]
    | some q =>
      have : b.isZero ≠ true := fun hz => by simp [hdiv.2 hz] at h
      simp [this]

/-- With well-formed literals the only error is a division by zero, and it arises exactly when
the right side of some division has the value zero. -/
theorem Expression.eval_error_iff {p : Precision} {e : Expression}
    (hlit : ∀ literal ∈ e.literals, ∃ d, Decimal.parse literal = .ok d) (err : EvalError) :
    e.eval p = .error err ↔ err = .divisionByZero ∧
      ∃ l r v, binary .div l r ∈ e.subterms ∧ r.eval p = .ok v ∧ v.isZero = true := by
  induction e generalizing err with
  | number literal =>
    obtain ⟨d, hd⟩ := hlit literal (by simp [literals])
    simp [eval, hd, subterms]
  | signed s e ih =>
    rw [eval_signed_error, ih hlit err]
    simp [subterms]
  | binary op l r ihl ihr =>
    have ihl := ihl fun s hs => hlit s (by simp [literals, hs])
    have ihr := ihr fun s hs => hlit s (by simp [literals, hs])
    constructor
    · intro h
      rcases eval_binary_error.1 h with hl | ⟨a, -, hr | ⟨b, hb, hop⟩⟩
      · obtain ⟨rfl, l', r', v, hmem, hv⟩ := (ihl err).1 hl
        exact ⟨rfl, l', r', v, by simp [subterms, hmem], hv⟩
      · obtain ⟨rfl, l', r', v, hmem, hv⟩ := (ihr err).1 hr
        exact ⟨rfl, l', r', v, by simp [subterms, hmem], hv⟩
      · obtain ⟨rfl, rfl, hz⟩ := BinaryOperator.apply_error_iff.1 hop
        exact ⟨rfl, l, r, b, by simp [subterms], hb, hz⟩
    · rintro ⟨rfl, l', r', v, hmem, hv⟩
      rw [eval_binary_error]
      cases hl : l.eval p with
      | error err =>
        obtain ⟨rfl, -⟩ := (ihl err).1 hl
        exact Or.inl rfl
      | ok a =>
        refine Or.inr ⟨a, rfl, ?_⟩
        cases hr : r.eval p with
        | error err =>
          obtain ⟨rfl, -⟩ := (ihr err).1 hr
          exact Or.inl rfl
        | ok b =>
          refine Or.inr ⟨b, rfl, ?_⟩
          -- neither operand divides by zero, so the division is the tree itself
          simp only [subterms, List.mem_cons, List.mem_append, binary.injEq] at hmem
          rcases hmem with ⟨rfl, rfl, rfl⟩ | hmem | hmem
          · obtain rfl : v = b := by simpa [hr] using hv.1.symm
            exact BinaryOperator.apply_error_iff.2 ⟨rfl, rfl, hv.2⟩
          · have := (ihl .divisionByZero).2 ⟨rfl, l', r', v, hmem, hv⟩
            simp [hl] at this
          · have := (ihr .divisionByZero).2 ⟨rfl, l', r', v, hmem, hv⟩
            simp [hr] at this

end ExactCalculator
