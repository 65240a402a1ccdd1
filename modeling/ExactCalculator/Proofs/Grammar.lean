import ExactCalculator.Decimal.Literal
import ExactCalculator.Proofs.Expression
import ExactCalculator.Rpn.Position

/-!
# The grammar of infix expressions

`Infix level tokens e`: the tokens, with every operator as the text spells it, are a phrase of
the given level, and `e` is its tree. The levels are those of the grammar

    expression → expression + term | expression - term | term
    term       → term * factor | term / factor | factor
    factor     → + factor | - factor | number | ( expression )

Proved here:

* `Infix.isLiteral_of_mem_literals`: the leaves of the tree are well-formed literals;
* `Infix.wellPlaced_append`: in a phrase numbers and opening parentheses stand where a value is
  expected, and closing parentheses after a value.
-/

namespace ExactCalculator

inductive Level where
  | expression
  | term
  | factor
  deriving DecidableEq, Repr

inductive Infix : Level → List Token → Expression → Prop
  | sum {ts us : List Token} {a b : Expression} {op : BinaryOperator} :
      op = .add ∨ op = .sub → Infix .expression ts a → Infix .term us b →
      Infix .expression (ts ++ .operator (.binary op) :: us) (.binary op a b)
  | ofTerm {ts : List Token} {a : Expression} : Infix .term ts a → Infix .expression ts a
  | product {ts us : List Token} {a b : Expression} {op : BinaryOperator} :
      op = .mul ∨ op = .div → Infix .term ts a → Infix .factor us b →
      Infix .term (ts ++ .operator (.binary op) :: us) (.binary op a b)
  | ofFactor {ts : List Token} {a : Expression} : Infix .factor ts a → Infix .term ts a
  | plus {ts : List Token} {a : Expression} :
      Infix .factor ts a → Infix .factor (.operator (.binary .add) :: ts) (.signed .plus a)
  | minus {ts : List Token} {a : Expression} :
      Infix .factor ts a → Infix .factor (.operator (.binary .sub) :: ts) (.signed .minus a)
  | number {literal : String} :
      isLiteral literal.toList = true → Infix .factor [.number literal] (.number literal)
  | group {ts : List Token} {a : Expression} :
      Infix .expression ts a → Infix .factor (.opening :: (ts ++ [.closing])) a

/-- The tokens are a phrase of the grammar. -/
def IsInfix (level : Level) (tokens : List Token) : Prop := ∃ e, Infix level tokens e

namespace Infix

theorem ne_nil {level : Level} {tokens : List Token} {e : Expression}
    (h : Infix level tokens e) : tokens ≠ [] := by
  induction h with
  | sum | product => simp
  | ofTerm _ ih | ofFactor _ ih => exact ih
  | plus | minus | number | group => simp

theorem isLiteral_of_mem_literals {level : Level} {tokens : List Token} {e : Expression}
    (h : Infix level tokens e) : ∀ s ∈ e.literals, isLiteral s.toList = true := by
  induction h with
  | sum _ _ _ iha ihb | product _ _ _ iha ihb =>
    intro s hs
    rcases List.mem_append.1 hs with hs | hs
    · exact iha s hs
    · exact ihb s hs
  | ofTerm _ ih | ofFactor _ ih | plus _ ih | minus _ ih | group _ ih => exact ih
  | number hlit =>
    intro s hs
    obtain rfl := List.mem_singleton.1 hs
    exact hlit

end Infix

/-! ## Places -/

/-- Whether a token fits a place. An operator always does: the place makes it a sign or a binary
operator. -/
def Position.admits (position : Position) : Token → Bool
  | .number _ | .opening => position.expectsValue
  | .closing => !position.expectsValue
  | .operator _ => true

/-- Every token of the list fits the place after the tokens before it. -/
def wellPlaced (position : Position) : List Token → Bool
  | [] => true
  | token :: tokens => position.admits token && wellPlaced (.after token) tokens

theorem Infix.wellPlaced_append {level : Level} {tokens : List Token} {e : Expression}
    (h : Infix level tokens e) {position : Position} (hp : position.expectsValue = true) :
    ∃ next : Position, next.expectsValue = false ∧
      ∀ rest, wellPlaced position (tokens ++ rest) = wellPlaced next rest := by
  induction h generalizing position with
  | sum _ _ _ iha ihb | product _ _ _ iha ihb =>
    obtain ⟨mid, -, ha⟩ := iha hp
    obtain ⟨next, hn, hb⟩ := @ihb .afterOperator rfl
    refine ⟨next, hn, ?_⟩
    intro rest
    rw [List.append_assoc, ha, List.cons_append, wellPlaced, Position.admits, Bool.true_and]
    exact hb rest
  | ofTerm _ ih | ofFactor _ ih => exact ih hp
  | plus _ ih | minus _ ih =>
    obtain ⟨next, hn, hrun⟩ := @ih .afterOperator rfl
    refine ⟨next, hn, ?_⟩
    intro rest
    rw [List.cons_append, wellPlaced, Position.admits, Bool.true_and]
    exact hrun rest
  | number =>
    refine ⟨.afterNumber, rfl, ?_⟩
    intro rest
    rw [List.singleton_append, wellPlaced, Position.admits, hp, Bool.true_and]
    rfl
  | group _ ih =>
    obtain ⟨mid, hm, hrun⟩ := @ih .afterOpening rfl
    refine ⟨.afterClosing, rfl, ?_⟩
    intro rest
    rw [List.cons_append, wellPlaced, Position.admits, hp, Bool.true_and, List.append_assoc]
    show wellPlaced .afterOpening _ = _
    rw [hrun, List.singleton_append, wellPlaced, Position.admits, hm, Bool.not_false,
      Bool.true_and]
    rfl

end ExactCalculator
