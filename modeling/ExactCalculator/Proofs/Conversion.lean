import ExactCalculator.Proofs.Grammar
import ExactCalculator.Rpn.Conversion

/-!
# Converting phrases of the grammar

What the converter does with one token is collected in `Converter.push_ok_iff` and
`Converter.push_error`. Reading a phrase keeps everything that waited before it: some operators
of the phrase may still wait on top (`pending`), and once they are released the output has grown
by the postorder list of the phrase (`Converter.Reads`, `Converter.run_phrase`). Hence
`Infix.toRpn_eq_rpn`: an infix expression is converted to the postorder list of its tree. As the
list determines the tree, the grammar is unambiguous (`Infix.unique`).
-/

namespace ExactCalculator

namespace Converter

/-! ## One token -/

theorem push_ok_iff {c next : Converter} {token : Token} :
    c.push token = .ok next ↔
      (∃ literal, token = .number literal ∧ next =
        { c with output := .number literal :: c.output, position := .afterNumber }) ∨
      (token = .opening ∧ next =
        { c with waiting := [], enclosing := c.waiting :: c.enclosing,
                 position := .afterOpening }) ∨
      (∃ outer enclosing, token = .closing ∧ c.enclosing = outer :: enclosing ∧ next =
        { c with output := write c.output c.waiting, waiting := outer, enclosing := enclosing,
                 position := .afterClosing }) ∨
      (∃ read op, token = .operator read ∧ c.position.resolve read = .ok op ∧
        next = c.pushOperator op) := by
  cases token with
  | number literal => simp [push, eq_comm]
  | opening => simp [push, eq_comm]
  | closing =>
    cases h : c.enclosing with
    | nil => simp [push, h]
    | cons outer enclosing =>
      simp only [push, h, Except.ok.injEq, reduceCtorEq, false_and, exists_false, false_or,
        or_false, List.cons.injEq, true_and]
      constructor
      · rintro rfl
        exact ⟨outer, enclosing, ⟨rfl, rfl⟩, rfl⟩
      · rintro ⟨_, _, ⟨rfl, rfl⟩, rfl⟩
        rfl
  | operator read =>
    cases h : c.position.resolve read with
    | error err => simp [push, h, Except.map]
    | ok op => simp [push, h, Except.map, eq_comm]

theorem position_of_push {c next : Converter} {token : Token} (h : c.push token = .ok next) :
    next.position = .after token := by
  rcases push_ok_iff.1 h with ⟨_, rfl, rfl⟩ | ⟨rfl, rfl⟩ | ⟨_, _, rfl, _, rfl⟩ |
    ⟨_, _, rfl, _, rfl⟩ <;> rfl

theorem push_error {c : Converter} {token : Token} {err : EvalError}
    (h : c.push token = .error err) :
    (err = .mismatchedParentheses ∧ token = .closing ∧ c.enclosing = []) ∨
      (err = .operatorAfterOperator ∧ c.position.expectsValue = true ∧
        ∃ op, token = .operator op ∧ op.asSign? = none) := by
  cases token with
  | number literal => simp [push] at h
  | opening => simp [push] at h
  | closing =>
    cases he : c.enclosing with
    | nil =>
      simp only [push, he, Except.error.injEq] at h
      exact Or.inl ⟨h.symm, rfl, rfl⟩
    | cons outer enclosing => simp [push, he] at h
  | operator op =>
    cases hp : c.position.expectsValue with
    | false => simp [push, Position.resolve, hp, Except.map] at h
    | true =>
      cases hs : op.asSign? with
      | some s => simp [push, Position.resolve, hp, hs, Except.map] at h
      | none =>
        simp only [push, Position.resolve, hp, hs, ↓reduceIte, Except.map,
          Except.error.injEq] at h
        exact Or.inr ⟨h.symm, rfl, op, rfl, hs⟩

theorem run_cons_ok {c next : Converter} {token : Token} (h : c.push token = .ok next)
    (rest : List Token) : c.run (token :: rest) = next.run rest := by
  rw [run, h]

theorem write_append (output : List Token) (xs ys : List Operator) :
    write output (xs ++ ys) = write (write output xs) ys := by
  simp [write]

/-! ## Which operators are released -/

theorem precedes_sign (w : Operator) (s : Sign) : w.precedes (.sign s) = false := by
  cases w with
  | sign t => rfl
  | binary op => cases op <;> rfl

theorem precedes_binary (w : Operator) (op : BinaryOperator) :
    w.precedes (.binary op) = true ↔ (Operator.binary op).precedence ≤ w.precedence := by
  cases w with
  | sign t =>
    cases op <;> simp [Operator.precedes, Operator.precedence]
  | binary w => cases w <;> cases op <;> decide

/-- A sign releases nothing. -/
theorem pushOperator_sign (c : Converter) (s : Sign) :
    c.pushOperator (.sign s) =
      { c with waiting := .sign s :: c.waiting, position := .afterOperator } := by
  have hall : ∀ xs : List Operator,
      xs.takeWhile (·.precedes (.sign s)) = [] ∧ xs.dropWhile (·.precedes (.sign s)) = xs := by
    intro xs
    cases xs <;> simp [precedes_sign]
  simp [pushOperator, hall, write]

/-- A binary operator releases the operators that bind at least as tight, up to the first one
that does not. -/
theorem pushOperator_binary {c : Converter} {pending waiting : List Operator}
    {op : BinaryOperator} (hw : c.waiting = pending ++ waiting)
    (hp : ∀ w ∈ pending, (Operator.binary op).precedence ≤ w.precedence)
    (hq : ∀ w ∈ waiting.head?, w.precedence < (Operator.binary op).precedence) :
    c.pushOperator (.binary op) =
      { c with output := write c.output pending, waiting := .binary op :: waiting,
               position := .afterOperator, popped := pending.reverse ++ c.popped } := by
  have hpend : ∀ w ∈ pending, w.precedes (.binary op) = true :=
    fun w hw => (precedes_binary w op).2 (hp w hw)
  have hrest : waiting.takeWhile (·.precedes (.binary op)) = [] ∧
      waiting.dropWhile (·.precedes (.binary op)) = waiting := by
    cases waiting with
    | nil => exact ⟨rfl, rfl⟩
    | cons w ws =>
      have hlt := hq w rfl
      have hneg : ¬ w.precedes (.binary op) = true := by
        rw [precedes_binary]
        omega
      exact ⟨List.takeWhile_cons_of_neg hneg, List.dropWhile_cons_of_neg hneg⟩
  have htake : (pending ++ waiting).takeWhile (·.precedes (.binary op)) = pending := by
    rw [List.takeWhile_append_of_pos hpend, hrest.1, List.append_nil]
  have hdrop : (pending ++ waiting).dropWhile (·.precedes (.binary op)) = waiting := by
    rw [List.dropWhile_append_of_pos hpend, hrest.2]
  simp only [pushOperator, hw, htake, hdrop]

end Converter

/-! ## Phrases -/

namespace Level

/-- The least precedence of an operator that stands in a phrase outside parentheses. -/
def tightness : Level → Nat
  | expression => 1
  | term => 2
  | factor => 3

/-- No binary operator of a phrase releases what waits before it. A factor has none outside
parentheses. -/
def Spares (level : Level) (waiting : List Operator) : Prop :=
  level = factor ∨ ∀ w ∈ waiting.head?, w.precedence < level.tightness

theorem Spares.mono {level : Level} {waiting : List Operator} (h : expression.Spares waiting) :
    level.Spares waiting := by
  obtain h | h := h
  · cases h
  · right
    intro w hw
    have := h w hw
    cases level <;> simp only [tightness] at this ⊢ <;> omega

end Level

namespace Converter

/-- From `c` to `next` a phrase with the tree `e` has been read. Its operators `pending` still
wait, on top of those that waited before; once they are written, the output has grown by the
postorder list of `e`. -/
structure Reads (c : Converter) (level : Level) (e : Expression) (pending : List Operator)
    (next : Converter) : Prop where
  waiting : next.waiting = pending ++ c.waiting
  enclosing : next.enclosing = c.enclosing
  position : next.position.expectsValue = false
  tight : ∀ w ∈ pending, level.tightness ≤ w.precedence
  output : write next.output pending = e.rpn.reverse ++ c.output

theorem Reads.weaken {c next : Converter} {level level' : Level} {e : Expression}
    {pending : List Operator} (h : c.Reads level e pending next)
    (hl : level'.tightness ≤ level.tightness) : c.Reads level' e pending next :=
  ⟨h.waiting, h.enclosing, h.position, fun w hw => Nat.le_trans hl (h.tight w hw), h.output⟩

/-- An operator that waits below the last operand becomes the last pending operator. -/
theorem Reads.operator {c mid next : Converter} {level level' : Level} {a e : Expression}
    {op : Operator} {before : List Token} {pending : List Operator}
    (h : mid.Reads level' a pending next) (hw : mid.waiting = op :: c.waiting)
    (he : mid.enclosing = c.enclosing) (ho : mid.output = before ++ c.output)
    (hl : level.tightness ≤ level'.tightness) (hop : level.tightness ≤ op.precedence)
    (hrpn : e.rpn.reverse = .operator op :: (a.rpn.reverse ++ before)) :
    c.Reads level e (pending ++ [op]) next := by
  refine ⟨?_, ?_, h.position, ?_, ?_⟩
  · rw [h.waiting, hw, List.append_assoc, List.singleton_append]
  · rw [h.enclosing, he]
  · intro w hw
    rcases List.mem_append.1 hw with hw | hw
    · exact Nat.le_trans hl (h.tight w hw)
    · rw [List.mem_singleton.1 hw]
      exact hop
  · rw [write_append, h.output, ho, hrpn]
    simp [write]

/-- Reading a binary operator after its left operand. -/
theorem Reads.push_binary {c mid : Converter} {level : Level} {a : Expression}
    {pending : List Operator} {op : BinaryOperator} (h : c.Reads level a pending mid)
    (hop : (Operator.binary op).precedence = level.tightness) (hs : level.Spares c.waiting)
    (hl : level ≠ .factor) :
    ∃ next, mid.push (.operator (.binary op)) = .ok next ∧
      next.waiting = .binary op :: c.waiting ∧ next.enclosing = c.enclosing ∧
      next.position.expectsValue = true ∧ next.output = a.rpn.reverse ++ c.output := by
  have hq : ∀ w ∈ c.waiting.head?, w.precedence < (Operator.binary op).precedence := by
    rw [hop]
    exact hs.resolve_left hl
  have hp : ∀ w ∈ pending, (Operator.binary op).precedence ≤ w.precedence := by
    rw [hop]
    exact h.tight
  have hpush := pushOperator_binary h.waiting hp hq
  refine ⟨mid.pushOperator (.binary op), ?_, ?_⟩
  · simp [push, Position.resolve, h.position, Except.map]
  · rw [hpush]
    exact ⟨rfl, h.enclosing, rfl, h.output⟩

/-- Reading a sign where a value is expected. -/
theorem push_sign {c : Converter} {op : BinaryOperator} {s : Sign}
    (hp : c.position.expectsValue = true) (hs : (Operator.binary op).asSign? = some s) :
    c.push (.operator (.binary op)) =
      .ok { c with waiting := .sign s :: c.waiting, position := .afterOperator } := by
  simp [push, Position.resolve, hp, hs, Except.map, pushOperator_sign]

end Converter

/-! ## Reading a phrase -/

namespace Converter

theorem run_signed {c : Converter} {ts : List Token} {a : Expression} {op : BinaryOperator}
    {s : Sign} (hp : c.position.expectsValue = true)
    (hs : (Operator.binary op).asSign? = some s)
    (ih : ∀ c : Converter, c.position.expectsValue = true → Level.factor.Spares c.waiting →
      ∃ pending next, c.Reads .factor a pending next ∧
        ∀ rest, c.run (ts ++ rest) = next.run rest) :
    ∃ pending next, c.Reads .factor (.signed s a) pending next ∧
      ∀ rest, c.run (.operator (.binary op) :: ts ++ rest) = next.run rest := by
  have hpush := push_sign hp hs
  obtain ⟨pending, next, hread, hrun⟩ := ih
    { c with waiting := .sign s :: c.waiting, position := .afterOperator } rfl (Or.inl rfl)
  refine ⟨pending ++ [.sign s], next, ?_, ?_⟩
  · refine hread.operator rfl rfl (show c.output = [] ++ c.output from rfl) (Nat.le_refl _)
      (Nat.le_refl _) ?_
    simp [Expression.rpn]
  · intro rest
    rw [List.cons_append, run_cons_ok hpush]
    exact hrun rest

theorem run_binary {c : Converter} {level level' : Level} {ts us : List Token}
    {a b : Expression} {op : BinaryOperator}
    (hop : (Operator.binary op).precedence = level.tightness)
    (hl : level.tightness < level'.tightness) (hs : level.Spares c.waiting)
    (iha : ∃ pending mid, c.Reads level a pending mid ∧
      ∀ rest, c.run (ts ++ rest) = mid.run rest)
    (ihb : ∀ c : Converter, c.position.expectsValue = true → level'.Spares c.waiting →
      ∃ pending next, c.Reads level' b pending next ∧
        ∀ rest, c.run (us ++ rest) = next.run rest) :
    ∃ pending next, c.Reads level (.binary op a b) pending next ∧
      ∀ rest, c.run (ts ++ .operator (.binary op) :: us ++ rest) = next.run rest := by
  have hfactor : level ≠ .factor := by
    rintro rfl
    cases level' <;> simp [Level.tightness] at hl
  obtain ⟨pending, mid, hleft, hrunl⟩ := iha
  obtain ⟨mid', hpush, hw, he, hp, ho⟩ := hleft.push_binary hop hs hfactor
  have hspares : level'.Spares mid'.waiting := by
    rw [hw]
    right
    intro w hw
    obtain rfl := Option.some.inj hw
    omega
  obtain ⟨pending', next, hright, hrunr⟩ := ihb mid' hp hspares
  refine ⟨pending' ++ [.binary op], next, ?_, ?_⟩
  · refine hright.operator hw he ho (by omega) (by omega) ?_
    simp [Expression.rpn]
  · intro rest
    rw [List.append_assoc, hrunl, List.cons_append, run_cons_ok hpush]
    exact hrunr rest

/-- The converter reads a phrase as its tree, whatever it has read before. -/
theorem run_phrase {level : Level} {tokens : List Token} {e : Expression}
    (h : Infix level tokens e) (c : Converter) (hp : c.position.expectsValue = true)
    (hs : level.Spares c.waiting) :
    ∃ pending next, c.Reads level e pending next ∧
      ∀ rest, c.run (tokens ++ rest) = next.run rest := by
  induction h generalizing c with
  | sum hop _ _ iha ihb =>
    refine run_binary ?_ (by decide) hs (iha c hp hs) ihb
    rcases hop with rfl | rfl <;> rfl
  | product hop _ _ iha ihb =>
    refine run_binary ?_ (by decide) hs (iha c hp hs) ihb
    rcases hop with rfl | rfl <;> rfl
  | ofTerm _ ih =>
    obtain ⟨pending, next, hread, hrun⟩ := ih c hp hs.mono
    exact ⟨pending, next, hread.weaken (by decide), hrun⟩
  | ofFactor _ ih =>
    obtain ⟨pending, next, hread, hrun⟩ := ih c hp (Or.inl rfl)
    exact ⟨pending, next, hread.weaken (by decide), hrun⟩
  | plus _ ih => exact run_signed hp rfl ih
  | minus _ ih => exact run_signed hp rfl ih
  | @number literal _ =>
    refine ⟨[], _, ?_, fun rest => run_cons_ok rfl rest⟩
    exact ⟨rfl, rfl, rfl, by simp, rfl⟩
  | @group ts a _ ih =>
    -- inside the parentheses nothing waits, so the closing one releases the pending operators
    obtain ⟨pending, mid, hread, hrun⟩ := ih
      { c with waiting := [], enclosing := c.waiting :: c.enclosing, position := .afterOpening }
      rfl (Or.inr (by simp))
    have hclose : mid.push .closing = .ok
        { mid with output := write mid.output mid.waiting, waiting := c.waiting,
                   enclosing := c.enclosing, position := .afterClosing } := by
      rw [push, hread.enclosing]
    refine ⟨[], { mid with output := write mid.output mid.waiting, waiting := c.waiting,
                           enclosing := c.enclosing, position := .afterClosing },
      ⟨rfl, rfl, rfl, by simp, ?_⟩, ?_⟩
    · show write (write mid.output mid.waiting) [] = _
      rw [hread.waiting, List.append_nil]
      exact hread.output
    · intro rest
      rw [List.cons_append, run_cons_ok rfl, List.append_assoc, hrun, List.singleton_append,
        run_cons_ok hclose]

end Converter

theorem ne_nil_of_toRpn {tokens rpn : List Token} (h : toRpn tokens = .ok rpn) : tokens ≠ [] := by
  rintro rfl
  cases h

theorem convert_eq_run {tokens : List Token} (h : tokens ≠ []) :
    convert tokens = Converter.start.run tokens := by
  cases tokens with
  | nil => exact absurd rfl h
  | cons token tokens => rfl

/-- An infix expression is converted to the postorder list of its tree. -/
theorem Infix.toRpn_eq_rpn {tokens : List Token} {e : Expression}
    (h : Infix .expression tokens e) : toRpn tokens = .ok e.rpn := by
  obtain ⟨pending, next, hread, hrun⟩ :=
    Converter.run_phrase h .start rfl (Or.inr (by simp [Converter.start]))
  rw [toRpn, convert_eq_run h.ne_nil, ← List.append_nil tokens, hrun, Converter.run,
    Converter.finish, hread.position, hread.enclosing, hread.waiting]
  simp [Converter.start, hread.output]

/-- The grammar is unambiguous: an expression has one tree. -/
theorem Infix.unique {tokens : List Token} {e e' : Expression}
    (h : Infix .expression tokens e) (h' : Infix .expression tokens e') : e = e' := by
  have hrpn : (.ok e.rpn : Except EvalError (List Token)) = .ok e'.rpn := by
    rw [← h.toRpn_eq_rpn, h'.toRpn_eq_rpn]
  exact Expression.rpn_injective (Except.ok.inj hrpn)

end ExactCalculator
