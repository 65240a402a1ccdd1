import ExactCalculator.Proofs.Verdict
import Mathlib.Data.List.Induction

/-!
# How conversion rearranges tokens

Conversion leaves the parentheses out and writes every other token once, a plus or minus where a
value has to come as a sign (`readings`). Whatever it writes before a number stands before this
number in the tokens, so numbers keep their order and no operator overtakes a number.

The tokens are numbered by their places (`numbered`). Those read so far are at any time the ones
written and the ones that wait (`Arranged`); tokens that are released go from the second to the
first (`Arranged.write`). Main statement: `conversion_rearranges`.
-/

namespace ExactCalculator

namespace Token

def isNumber : Token → Bool
  | number _ => true
  | operator _ | opening | closing => false

def isOperator : Token → Bool
  | operator _ => true
  | number _ | opening | closing => false

def isParenthesis : Token → Bool
  | opening | closing => true
  | number _ | operator _ => false

end Token

/-- A plus or minus as a sign, any other operator as it is. -/
def Operator.signed : Operator → Operator
  | binary .add => sign .plus
  | binary .sub => sign .minus
  | op => op

namespace Conversion

instance : DecidablePred ExpectsValue := fun before =>
  decidable_of_iff (∀ token ∈ before.getLast?, (Position.after token).expectsValue = true) <| by
    cases before using List.reverseRecOn with
    | nil => simp [ExpectsValue]
    | append_singleton before token => simp [expectsValue_append]

/-! ## Readings and places -/

/-- A token as it is read after others: where a value has to come, plus and minus are signs. -/
def reading (before : List Token) : Token → Token
  | .operator op => .operator (if ExpectsValue before then op.signed else op)
  | token => token

/-- Tokens as they are read after others. -/
def readings (before : List Token) : List Token → List Token
  | [] => []
  | token :: tokens => reading before token :: readings (before ++ [token]) tokens

/-- All tokens but the parentheses, as they are read, with their places. -/
def numbered (tokens : List Token) : List (Token × ℕ) :=
  (readings [] tokens).zipIdx.filter fun x => !x.1.isParenthesis

section

variable (before tokens : List Token) (token : Token)

theorem isParenthesis_reading : (reading before token).isParenthesis = token.isParenthesis := by
  cases token <;> rfl

theorem readings_append :
    readings before (tokens ++ [token]) =
      readings before tokens ++ [reading (before ++ tokens) token] := by
  induction tokens generalizing before with
  | nil => simp [readings]
  | cons first tokens ih => simp [readings, ih]

theorem length_readings : (readings before tokens).length = tokens.length := by
  induction tokens generalizing before with
  | nil => rfl
  | cons token tokens ih => rw [readings, List.length_cons, ih, List.length_cons]

theorem numbered_append :
    numbered (tokens ++ [token]) = numbered tokens ++
      if token.isParenthesis then [] else [(reading tokens token, tokens.length)] := by
  have hlast : [(reading tokens token, tokens.length)].filter (fun x => !x.1.isParenthesis) =
      if token.isParenthesis then [] else [(reading tokens token, tokens.length)] := by
    cases h : token.isParenthesis <;> simp [isParenthesis_reading, h]
  rw [numbered, readings_append, List.zipIdx_append, List.filter_append, length_readings,
    List.nil_append, Nat.zero_add, List.zipIdx_singleton, hlast, numbered]

end

theorem lt_length_of_mem_numbered {tokens : List Token} {x : Token × ℕ}
    (h : x ∈ numbered tokens) : x.2 < tokens.length := by
  have hlt := List.snd_lt_of_mem_zipIdx (List.mem_filter.1 h).1
  rwa [length_readings] at hlt

theorem pairwise_numbered (tokens : List Token) :
    (numbered tokens).Pairwise fun x y => x.2 < y.2 := by
  induction tokens using List.reverseRecOn with
  | nil => exact .nil
  | append_singleton tokens token ih =>
    rw [numbered_append, List.pairwise_append]
    refine ⟨ih, ?_, ?_⟩
    · cases token.isParenthesis <;> simp
    · intro x hx y hy
      cases hp : token.isParenthesis with
      | true => simp [hp] at hy
      | false =>
        simp only [hp, Bool.false_eq_true, ↓reduceIte, List.mem_singleton] at hy
        rw [hy]
        exact lt_length_of_mem_numbered hx

/-- Numbers are read as they stand. -/
theorem map_filter_isNumber_numbered (tokens : List Token) :
    ((numbered tokens).filter fun x => x.1.isNumber).map Prod.fst =
      tokens.filter Token.isNumber := by
  induction tokens using List.reverseRecOn with
  | nil => rfl
  | append_singleton tokens token ih =>
    rw [numbered_append, List.filter_append, List.map_append, ih, List.filter_append]
    cases token <;> rfl

/-- Parentheses are no operators. -/
theorem map_filter_isOperator_numbered (tokens : List Token) :
    ((numbered tokens).filter fun x => x.1.isOperator).map Prod.fst =
      (readings [] tokens).filter Token.isOperator := by
  induction tokens using List.reverseRecOn with
  | nil => rfl
  | append_singleton tokens token ih =>
    rw [numbered_append, List.filter_append, List.map_append, ih, readings_append,
      List.filter_append]
    cases token <;> rfl

theorem length_numbered (tokens : List Token) :
    (numbered tokens).length + tokens.count .opening + tokens.count .closing = tokens.length := by
  induction tokens using List.reverseRecOn with
  | nil => rfl
  | append_singleton tokens token ih =>
    rw [numbered_append, List.length_append, List.count_append, List.count_append,
      List.length_append]
    cases token <;> simp [Token.isParenthesis] <;> omega

/-! ## Tokens written and tokens that wait -/

/-- The tokens are those written and those that wait, the latest ones first. What was written before
a number stands before it. -/
structure Arranged (before : List Token) (written waiting : List (Token × ℕ)) : Prop where
  perm : (written ++ waiting).Perm (numbered before)
  order : written.Pairwise fun x y => x.1.isNumber = true → y.2 < x.2

namespace Arranged

variable {before : List Token} {written waiting : List (Token × ℕ)}

theorem nil : Arranged [] [] [] := ⟨.refl [], .nil⟩

theorem number (h : Arranged before written waiting) (literal : String) :
    Arranged (before ++ [.number literal]) ((.number literal, before.length) :: written) waiting := by
  refine ⟨?_, List.pairwise_cons.2 ⟨?_, h.order⟩⟩
  · rw [numbered_append]
    exact (h.perm.cons _).trans (List.perm_append_singleton _ _).symm
  · intro x hx _
    exact lt_length_of_mem_numbered (h.perm.mem_iff.1 (List.mem_append_left _ hx))

theorem operator (h : Arranged before written waiting) (op : Operator) :
    Arranged (before ++ [.operator op]) written
      ((reading before (.operator op), before.length) :: waiting) := by
  refine ⟨?_, h.order⟩
  rw [numbered_append]
  exact List.perm_middle.trans
    ((h.perm.cons _).trans (List.perm_append_singleton _ _).symm)

theorem parenthesis (h : Arranged before written waiting) {token : Token}
    (htoken : token.isParenthesis = true) : Arranged (before ++ [token]) written waiting := by
  refine ⟨?_, h.order⟩
  rw [numbered_append, if_pos htoken, List.append_nil]
  exact h.perm

/-- Tokens that are no numbers may be written at any time. -/
theorem write {released : List (Token × ℕ)} (h : Arranged before written (released ++ waiting))
    (hreleased : ∀ x ∈ released, x.1.isNumber = false) :
    Arranged before (released.reverse ++ written) waiting := by
  have hno : ∀ x ∈ released.reverse, x.1.isNumber ≠ true := by
    intro x hx
    rw [hreleased x (List.mem_reverse.1 hx)]
    exact Bool.false_ne_true
  constructor
  · have hswap : (released.reverse ++ written).Perm (written ++ released) :=
      ((List.reverse_perm released).append_right written).trans List.perm_append_comm
    have hall := hswap.append_right waiting
    rw [List.append_assoc written] at hall
    exact hall.trans h.perm
  · refine List.pairwise_append.2 ⟨?_, h.order, ?_⟩
    · exact List.pairwise_of_forall_mem_list fun x hx y _ hn => absurd hn (hno x hx)
    · intro x hx y _ hn
      exact absurd hn (hno x hx)

end Arranged

end Conversion

open Conversion

/-! ## The converter -/

namespace Converter

/-- All operators that wait, inside and around the open parentheses. -/
def held (c : Converter) : List Operator := c.waiting ++ c.enclosing.flatten

/-- The converter has arranged the tokens: its output are those written, and the operators it holds
are those that wait. -/
def Arranges (c : Converter) (before : List Token) : Prop :=
  ∃ written waiting, Arranged before written waiting ∧ written.map Prod.fst = c.output ∧
    waiting.map Prod.fst = c.held.map .operator

variable {c next : Converter} {before tokens rpn : List Token} {token : Token}

theorem arranges_start : start.Arranges [] := ⟨[], [], .nil, rfl, rfl⟩

theorem Arranges.release (h : c.Arranges before) {released kept : List Operator}
    (hheld : c.held = released ++ kept) (houtput : next.output = write c.output released)
    (hnext : next.held = kept) : next.Arranges before := by
  obtain ⟨written, waiting, harranged, hwritten, hwaiting⟩ := h
  rw [hheld, List.map_append] at hwaiting
  obtain ⟨out, rest, rfl, hout, hrest⟩ := List.map_eq_append_iff.1 hwaiting
  have hnumber : ∀ x ∈ out, x.1.isNumber = false := by
    intro x hx
    have hmem := List.mem_map_of_mem (f := Prod.fst) hx
    rw [hout] at hmem
    obtain ⟨op, -, hop⟩ := List.mem_map.1 hmem
    rw [← hop]
    rfl
  refine ⟨_, rest, harranged.write hnumber, ?_, by rw [hrest, hnext]⟩
  rw [List.map_append, List.map_reverse, hout, hwritten, houtput]
  rfl

theorem Arranges.number (h : c.Arranges before) {literal : String}
    (houtput : next.output = .number literal :: c.output) (hheld : next.held = c.held) :
    next.Arranges (before ++ [.number literal]) := by
  obtain ⟨written, waiting, harranged, hwritten, hwaiting⟩ := h
  refine ⟨_, waiting, harranged.number literal, ?_, by rw [hwaiting, hheld]⟩
  rw [List.map_cons, hwritten, houtput]

theorem Arranges.operator (h : c.Arranges before) {read op : Operator}
    (hread : reading before (.operator read) = .operator op)
    (houtput : next.output = c.output) (hheld : next.held = op :: c.held) :
    next.Arranges (before ++ [.operator read]) := by
  obtain ⟨written, waiting, harranged, hwritten, hwaiting⟩ := h
  refine ⟨written, _, harranged.operator read, by rw [hwritten, houtput], ?_⟩
  rw [List.map_cons, hread, hwaiting, hheld, List.map_cons]

theorem Arranges.parenthesis (h : c.Arranges before) (htoken : token.isParenthesis = true)
    (houtput : next.output = c.output) (hheld : next.held = c.held) :
    next.Arranges (before ++ [token]) := by
  obtain ⟨written, waiting, harranged, hwritten, hwaiting⟩ := h
  exact ⟨written, waiting, harranged.parenthesis htoken, by rw [hwritten, houtput],
    by rw [hwaiting, hheld]⟩

/-- An operator that is not misplaced is resolved to its reading. -/
theorem Tracks.reading_operator (h : c.Tracks before) {read op : Operator}
    (hop : c.position.resolve read = .ok op) :
    reading before (.operator read) = .operator op := by
  have hposition := h.position
  rw [Position.resolve] at hop
  cases hp : c.position.expectsValue with
  | false =>
    have hexpects : ¬ ExpectsValue before := by simpa [hp] using hposition
    rw [hp] at hop
    rw [reading, if_neg hexpects, Except.ok.inj hop]
  | true =>
    have hexpects : ExpectsValue before := hposition.1 hp
    rw [hp, if_pos rfl] at hop
    rw [reading, if_pos hexpects]
    cases read with
    | sign _ =>
      cases hop
      rfl
    | binary op =>
      cases op with
      | add | sub =>
        cases hop
        rfl
      | mul | div => cases hop

/-- One token is written, held or left out, and what is released is written. -/
theorem Arranges.push (h : c.Arranges before) (htracks : c.Tracks before)
    (hpush : c.push token = .ok next) : next.Arranges (before ++ [token]) := by
  rcases push_ok_iff.1 hpush with ⟨literal, rfl, rfl⟩ | ⟨rfl, rfl⟩ |
    ⟨outer, enclosing, rfl, henclosing, rfl⟩ | ⟨read, op, rfl, hop, rfl⟩
  · exact h.number rfl rfl
  · exact h.parenthesis rfl rfl rfl
  · have hheld : c.held = c.waiting ++ (outer ++ enclosing.flatten) := by
      rw [held, henclosing, List.flatten_cons]
    have hreleased : Arranges { c with output := write c.output c.waiting, waiting := outer,
                                       enclosing := enclosing } before :=
      h.release hheld rfl rfl
    exact hreleased.parenthesis rfl rfl rfl
  · have hheld : c.held = c.waiting.takeWhile (·.precedes op) ++
        (c.waiting.dropWhile (·.precedes op) ++ c.enclosing.flatten) := by
      rw [held, ← List.append_assoc, List.takeWhile_append_dropWhile]
    have hreleased :
        Arranges { c with output := write c.output (c.waiting.takeWhile (·.precedes op)),
                          waiting := c.waiting.dropWhile (·.precedes op) } before :=
      h.release hheld rfl rfl
    exact hreleased.operator (htracks.reading_operator hop) rfl rfl

theorem Arranges.run (h : c.Arranges before) (htracks : c.Tracks before)
    (hrun : (c.run tokens).verdict = .ok rpn) :
    ∃ last : Converter, last.Arranges (before ++ tokens) ∧ last.Tracks (before ++ tokens) ∧
      last.finish = .ok rpn := by
  induction tokens generalizing c before with
  | nil =>
    rw [List.append_nil]
    exact ⟨c, h, htracks, hrun⟩
  | cons token tokens ih =>
    cases hpush : c.push token with
    | error err => simp [Converter.run, hpush] at hrun
    | ok next =>
      rw [run_cons_ok hpush] at hrun
      obtain ⟨last, hlast⟩ := ih (h.push htracks hpush) (htracks.push hpush) hrun
      rw [List.append_assoc, List.singleton_append] at hlast
      exact ⟨last, hlast⟩

end Converter

/-! ## The tokens in reverse Polish notation -/

namespace Conversion

/-- The tokens with their places, in the order in which they are written. -/
structure IsOrderOf (placed : List (Token × ℕ)) (tokens rpn : List Token) : Prop where
  written : placed.map Prod.fst = rpn
  perm : placed.Perm (numbered tokens)
  /-- Whatever is written before a number stands before it. -/
  order : placed.Pairwise fun x y => y.1.isNumber = true → x.2 < y.2

/-- Once nothing waits, all tokens are written. -/
theorem Arranged.isOrderOf {tokens : List Token} {written : List (Token × ℕ)}
    (h : Arranged tokens written []) :
    IsOrderOf written.reverse tokens (written.map Prod.fst).reverse := by
  refine ⟨List.map_reverse, ?_, List.pairwise_reverse.2 h.order⟩
  have hperm := h.perm
  rw [List.append_nil] at hperm
  exact (List.reverse_perm written).trans hperm

theorem exists_isOrderOf {tokens rpn : List Token} (h : toRpn tokens = .ok rpn) :
    (∃ placed, IsOrderOf placed tokens rpn) ∧
      tokens.count .closing = tokens.count .opening := by
  rw [toRpn, convert_eq_run (ne_nil_of_toRpn h)] at h
  obtain ⟨last, harranges, htracks, hfinish⟩ :=
    Converter.arranges_start.run Converter.tracks_start h
  rw [List.nil_append] at harranges htracks
  obtain ⟨-, henclosing, rfl⟩ := Converter.finish_ok_iff.1 hfinish
  have hheld : last.held = last.waiting ++ [] := by
    rw [Converter.held, henclosing, List.flatten_nil]
  have hreleased : Converter.Arranges { last with
      output := Converter.write last.output last.waiting, waiting := [], enclosing := [] } tokens :=
    harranges.release hheld rfl rfl
  obtain ⟨written, waiting, harranged, hwritten, hwaiting⟩ := hreleased
  obtain rfl : waiting = [] := List.map_eq_nil_iff.1 hwaiting
  have hdepth := htracks.depth
  rw [henclosing, List.length_nil, Nat.zero_add] at hdepth
  refine ⟨⟨written.reverse, ?_⟩, hdepth⟩
  have horder := harranged.isOrderOf
  rwa [hwritten] at horder

theorem IsOrderOf.filter_isNumber {placed : List (Token × ℕ)} {tokens rpn : List Token}
    (h : IsOrderOf placed tokens rpn) :
    rpn.filter Token.isNumber = tokens.filter Token.isNumber := by
  have hplaced : (placed.filter fun x => x.1.isNumber).Pairwise fun x y => x.2 < y.2 := by
    refine (h.order.filter _).imp_of_mem ?_
    intro x y _ hy hxy
    exact hxy (List.mem_filter.1 hy).2
  have hsorted := (pairwise_numbered tokens).filter fun x => x.1.isNumber
  have heq := List.Perm.eq_of_pairwise
    (fun x y _ _ hxy hyx => absurd hyx (Nat.lt_asymm hxy)) hplaced hsorted
    (h.perm.filter fun x => x.1.isNumber)
  rw [← map_filter_isNumber_numbered tokens, ← heq, ← h.written, List.filter_map]
  rfl

theorem IsOrderOf.filter_isOperator_perm {placed : List (Token × ℕ)} {tokens rpn : List Token}
    (h : IsOrderOf placed tokens rpn) :
    (rpn.filter Token.isOperator).Perm ((readings [] tokens).filter Token.isOperator) := by
  have hperm := (h.perm.filter fun x => x.1.isOperator).map Prod.fst
  rw [map_filter_isOperator_numbered] at hperm
  rwa [← h.written, List.filter_map]

end Conversion

/-- Tokens that are converted are rearranged. None of the parentheses is written; the numbers keep
their order; the operators are the same, except that plus and minus where a value has to come are
signs; and no operator is written before a number that stands before it. -/
theorem conversion_rearranges {tokens rpn : List Token} (h : toRpn tokens = .ok rpn) :
    (∀ token ∈ rpn, token.isParenthesis = false) ∧
      rpn.filter Token.isNumber = tokens.filter Token.isNumber ∧
      (rpn.filter Token.isOperator).Perm ((readings [] tokens).filter Token.isOperator) ∧
      (∃ placed, IsOrderOf placed tokens rpn) ∧
      rpn.length + 2 * tokens.count .opening = tokens.length := by
  obtain ⟨⟨placed, horder⟩, hcount⟩ := exists_isOrderOf h
  refine ⟨?_, horder.filter_isNumber, horder.filter_isOperator_perm, ⟨placed, horder⟩, ?_⟩
  · intro token htoken
    rw [← horder.written] at htoken
    obtain ⟨x, hx, rfl⟩ := List.mem_map.1 htoken
    simpa using (List.mem_filter.1 (horder.perm.mem_iff.1 hx)).2
  · have hlength := horder.perm.length_eq
    have hall := length_numbered tokens
    rw [← horder.written, List.length_map]
    omega

/-- Tokens that are no expression are rearranged as well: `- ( 2 3 - ) * 4` becomes
`2 3 - u- 4 *`. -/
theorem juxtaposed_numbers_rearranged :
    ∃ tokens rpn, Token.format tokens = "- ( 2 3 - ) * 4" ∧ Token.format rpn = "2 3 - u- 4 *" ∧
      toRpn tokens = .ok rpn ∧ (∃ placed, IsOrderOf placed tokens rpn) ∧
      rpn.length + 2 * tokens.count .opening = tokens.length := by
  have hrpn : toRpn [.operator (.binary .sub), .opening, .number "2", .number "3",
      .operator (.binary .sub), .closing, .operator (.binary .mul), .number "4"] =
      .ok [.number "2", .number "3", .operator (.binary .sub), .operator (.sign .minus),
        .number "4", .operator (.binary .mul)] := by decide
  obtain ⟨-, -, -, horder, hlength⟩ := conversion_rearranges hrpn
  exact ⟨_, _, by decide, by decide, hrpn, horder, hlength⟩

end ExactCalculator
