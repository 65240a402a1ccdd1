import ExactCalculator.Proofs.Conversion
import ExactCalculator.Proofs.Evaluation
import ExactCalculator.Proofs.Scanning
import Mathlib.Algebra.Ring.Nat

/-!
# Tokens take up characters

The tokens of a text take up distinct characters of it (`totalWidth_le_of_scan`), and conversion
writes every token at most once (`totalWidth_le_of_toRpn`): parentheses are left out, and operators
that wait are written later. So the tokens that are calculated are together no wider than the text
(`totalWidth_le_length`).
-/

namespace ExactCalculator

namespace Token

/-- The number of characters that a token takes up in a text. -/
def width : Token → Nat
  | number literal => literal.length
  | operator _ | opening | closing => 1

def totalWidth (tokens : List Token) : Nat := (tokens.map width).sum

theorem totalWidth_cons (token : Token) (tokens : List Token) :
    totalWidth (token :: tokens) = token.width + totalWidth tokens := by
  rw [totalWidth, List.map_cons, List.sum_cons, totalWidth]

theorem totalWidth_append (ts us : List Token) :
    totalWidth (ts ++ us) = totalWidth ts + totalWidth us := by
  rw [totalWidth, List.map_append, List.sum_append, totalWidth, totalWidth]

theorem totalWidth_reverse (tokens : List Token) :
    totalWidth tokens.reverse = totalWidth tokens := by
  rw [totalWidth, List.map_reverse, List.sum_reverse, totalWidth]

theorem totalWidth_operators (ops : List Operator) :
    totalWidth (ops.map operator) = ops.length := by
  induction ops with
  | nil => rfl
  | cons op ops ih =>
    rw [List.map_cons, totalWidth_cons, ih, List.length_cons, width, Nat.add_comm]

/-! ## Reading -/

theorem width_of_ofSymbol? {c : Char} {token : Token} (h : ofSymbol? c = some token) :
    token.width = 1 := by
  unfold ofSymbol? at h
  split at h <;> cases h <;> rfl

theorem totalWidth_le_of_scan {cs : List Char} {tokens : List Token} (h : scan cs = .ok tokens) :
    totalWidth tokens ≤ cs.length := by
  fun_induction scan cs generalizing tokens with
  | case1 =>
    cases h
    exact Nat.le_refl 0
  | case2 c cs hb ih => exact Nat.le_succ_of_le (ih h)
  | case3 c cs hb token ht ih =>
    obtain ⟨rest, hs, rfl⟩ := map_eq_ok_iff.1 h
    rw [totalWidth_cons, width_of_ofSymbol? ht, List.length_cons]
    have := ih hs
    omega
  | case4 c cs hb ht hn run hl =>
    rename_i ih
    obtain ⟨rest, hs, rfl⟩ := map_eq_ok_iff.1 h
    have hsplit := congrArg List.length
      (List.takeWhile_append_dropWhile (p := isNumeral) (l := cs))
    have hrun : (String.ofList run).length = (cs.takeWhile isNumeral).length + 1 := by
      rw [String.length_ofList, List.length_cons]
    have hrest := ih hs
    rw [List.length_append] at hsplit
    rw [totalWidth_cons, width, hrun, List.length_cons]
    omega
  | case5 c cs hb ht hn => cases h
  | case6 c cs hb ht hn => cases h

end Token

open Token

/-! ## Converting -/

namespace Converter

/-- The width of the tokens that are written and of the operators that wait. -/
def width (c : Converter) : Nat :=
  totalWidth c.output + c.waiting.length + (c.enclosing.map List.length).sum

theorem totalWidth_write (output : List Token) (released : List Operator) :
    totalWidth (write output released) = totalWidth output + released.length := by
  rw [write, totalWidth_append, totalWidth_reverse, totalWidth_operators, Nat.add_comm]

/-- The released operators are written, so nothing is lost or doubled. -/
theorem width_pushOperator (c : Converter) (op : Operator) :
    (c.pushOperator op).width = c.width + 1 := by
  have hsplit := congrArg List.length
    (List.takeWhile_append_dropWhile (p := (·.precedes op)) (l := c.waiting))
  rw [List.length_append] at hsplit
  simp only [width, pushOperator, totalWidth_write, List.length_cons]
  omega

theorem width_le_of_push {c next : Converter} {token : Token} (h : c.push token = .ok next) :
    next.width ≤ c.width + token.width := by
  rcases push_ok_iff.1 h with ⟨literal, rfl, rfl⟩ | ⟨rfl, rfl⟩ |
    ⟨outer, enclosing, rfl, henclosing, rfl⟩ | ⟨read, op, rfl, -, rfl⟩
  · simp only [width, totalWidth_cons]
    omega
  · simp only [width, List.map_cons, List.sum_cons, List.length_nil]
    omega
  · simp only [width, henclosing, totalWidth_write, List.map_cons, List.sum_cons]
    omega
  · exact Nat.le_of_eq (width_pushOperator c op)

theorem totalWidth_le_of_run {c : Converter} {tokens rpn : List Token}
    (h : (c.run tokens).verdict = .ok rpn) :
    totalWidth rpn ≤ c.width + totalWidth tokens := by
  induction tokens generalizing c with
  | nil =>
    obtain ⟨-, henclosing, rfl⟩ := finish_ok_iff.1 h
    rw [totalWidth_reverse, totalWidth_write, width, henclosing]
    exact Nat.le_refl _
  | cons token tokens ih =>
    cases hpush : c.push token with
    | error e => simp [run, hpush] at h
    | ok next =>
      rw [run_cons_ok hpush] at h
      have hnext := width_le_of_push hpush
      have hrest := ih h
      rw [totalWidth_cons]
      omega

end Converter

theorem totalWidth_le_of_toRpn {tokens rpn : List Token} (h : toRpn tokens = .ok rpn) :
    totalWidth rpn ≤ totalWidth tokens := by
  cases tokens with
  | nil => cases h
  | cons token tokens =>
    have hstart : Converter.start.width = 0 := rfl
    have hle := Converter.totalWidth_le_of_run h
    rwa [hstart, Nat.zero_add] at hle

/-- The tokens that are calculated for a text are together no wider than the text. -/
theorem totalWidth_le_length {text : String} {tokens rpn : List Token}
    (htokens : tokenize text = .ok tokens) (hrpn : toRpn tokens = .ok rpn) :
    totalWidth rpn ≤ text.length := by
  rw [← String.length_toList]
  exact Nat.le_trans (totalWidth_le_of_toRpn hrpn) (totalWidth_le_of_scan htokens)

end ExactCalculator
