import ExactCalculator.Proofs.Postorder

/-!
# Which operations a calculation completes

A binary operator is completed when everything that stands before it has been read as trees with
values, of which the last two are its operands, and its operation has a result (`CompletedAt`). A
calculation accounts for exactly the completed operators, in order, whatever comes after them
(`exists_isCompletionOrder`). They are the binary operators up to some place: all of them if there is
a value, and those before the failing division if there is a division by zero.
-/

namespace ExactCalculator

def Token.isBinary : Token → Bool
  | operator (.binary _) => true
  | number _ | operator (.sign _) | opening | closing => false

namespace Calculation

/-- The places of the binary operators, in order. -/
def binaryPlaces (tokens : List Token) : List ℕ :=
  (tokens.zipIdx.filter fun x => x.1.isBinary).map Prod.snd

/-- The tokens are the postorder lists of trees that have values, the last two of them these. -/
def Operands (p : Precision) (before : List Token) (a b : Decimal) : Prop :=
  ∃ es vs, before = rpnOfTrees es ∧
    List.Forall₂ (fun e v => e.eval p = .ok v) es (b :: a :: vs)

/-- The operator at place `k` is that of the operation, has its operands and its result. -/
structure CompletedAt (p : Precision) (rpn : List Token) (k : ℕ) (o : Operation) : Prop where
  operator : rpn[k]? = some (.operator (.binary o.op))
  operands : Operands p (rpn.take k) o.left o.right
  result : o.op.apply p o.left o.right = .ok o.result

/-- All operations that are completed, in the order of their places. -/
structure IsCompletionOrder (p : Precision) (rpn : List Token)
    (done : List (Operation × ℕ)) : Prop where
  mem_iff : ∀ x, x ∈ done ↔ CompletedAt p rpn x.2 x.1
  order : done.Pairwise fun x y => x.2 < y.2

/-- The operator at place `k` is a division that has its operands, the right one zero. -/
structure DividesByZeroAt (p : Precision) (rpn : List Token) (k : ℕ) : Prop where
  operator : rpn[k]? = some (.operator (.binary .div))
  operands : ∃ a b, Operands p (rpn.take k) a b ∧ b.isZero = true

theorem binaryPlaces_append (before : List Token) (token : Token) :
    binaryPlaces (before ++ [token]) =
      binaryPlaces before ++ if token.isBinary then [before.length] else [] := by
  rw [binaryPlaces, List.zipIdx_append, List.filter_append, List.map_append, binaryPlaces]
  cases h : token.isBinary <;> simp [h]

theorem length_binaryPlaces (tokens : List Token) :
    (binaryPlaces tokens).length = tokens.countP Token.isBinary := by
  induction tokens using List.reverseRecOn with
  | nil => rfl
  | append_singleton before token ih =>
    rw [binaryPlaces_append, List.length_append, ih, List.countP_append]
    cases h : token.isBinary <;> simp [h]

end Calculation

open Calculation

section

variable {p : Precision} {before rest : List Token} {token : Token} {k : ℕ} {o : Operation}
  {c next : Calculator} {a b : Decimal} {done : List (Operation × ℕ)}

/-! ## Operands and the stack of values -/

/-- The operands are the two values on top when the calculation gets so far. -/
theorem Calculation.operands_iff :
    Operands p before a b ↔
      ∃ c vs, Calculator.start.Reaches p before c ∧ c.values = b :: a :: vs := by
  constructor
  · rintro ⟨es, vs, rfl, hvalues⟩
    obtain ⟨c, hc, hcvalues⟩ := Calculator.exists_reaches_trees hvalues
    exact ⟨c, vs, hc, hcvalues⟩
  · rintro ⟨c, vs, hc, hvalues⟩
    obtain ⟨es, rfl, hes⟩ := hc.exists_trees
    exact ⟨es, vs, rfl, hvalues ▸ hes⟩

theorem Calculator.Reaches.operands_iff (h : Calculator.start.Reaches p before c) :
    Operands p before a b ↔ ∃ vs, c.values = b :: a :: vs := by
  rw [Calculation.operands_iff]
  constructor
  · rintro ⟨c', vs, h', hvalues⟩
    obtain rfl := h.unique h'
    exact ⟨vs, hvalues⟩
  · rintro ⟨vs, hvalues⟩
    exact ⟨c, vs, h, hvalues⟩

/-! ## One more token -/

theorem Calculation.CompletedAt.lt_length (h : CompletedAt p before k o) : k < before.length := by
  obtain ⟨hlt, -⟩ := List.getElem?_eq_some_iff.1 h.operator
  exact hlt

/-- What is completed depends only on the tokens up to there. -/
theorem Calculation.completedAt_append_of_lt (hlt : k < before.length) :
    CompletedAt p (before ++ rest) k o ↔ CompletedAt p before k o := by
  have hoperator : (before ++ rest)[k]? = before[k]? := List.getElem?_append_left hlt
  have htake : (before ++ rest).take k = before.take k := List.take_append_of_le_length hlt.le
  constructor
  · rintro ⟨hop, hoperands, hresult⟩
    exact ⟨hoperator ▸ hop, htake ▸ hoperands, hresult⟩
  · rintro ⟨hop, hoperands, hresult⟩
    exact ⟨hoperator ▸ hop, htake ▸ hoperands, hresult⟩

theorem Calculation.completedAt_length :
    CompletedAt p (before ++ [token]) before.length o ↔
      token = .operator (.binary o.op) ∧ Operands p before o.left o.right ∧
        o.op.apply p o.left o.right = .ok o.result := by
  constructor
  · rintro ⟨hop, hoperands, hresult⟩
    rw [List.take_left] at hoperands
    exact ⟨by simpa using hop, hoperands, hresult⟩
  · rintro ⟨rfl, hoperands, hresult⟩
    exact ⟨by simp, by rwa [List.take_left], hresult⟩

theorem Calculation.completedAt_append :
    CompletedAt p (before ++ [token]) k o ↔ CompletedAt p before k o ∨
      (k = before.length ∧ token = .operator (.binary o.op) ∧ Operands p before o.left o.right ∧
        o.op.apply p o.left o.right = .ok o.result) := by
  constructor
  · intro h
    have hlt := h.lt_length
    rw [List.length_append, List.length_singleton] at hlt
    rcases Nat.lt_succ_iff_lt_or_eq.1 hlt with hlt | rfl
    · exact Or.inl ((completedAt_append_of_lt hlt).1 h)
    · exact Or.inr ⟨rfl, completedAt_length.1 h⟩
  · rintro (h | ⟨rfl, h⟩)
    · exact (completedAt_append_of_lt h.lt_length).2 h
    · exact completedAt_length.2 h

/-- A calculation gets past every operator that is completed. -/
theorem Calculation.CompletedAt.exists_reaches (h : CompletedAt p before k o) :
    ∃ c, Calculator.start.Reaches p (before.take (k + 1)) c := by
  obtain ⟨c, vs, hc, hvalues⟩ := Calculation.operands_iff.1 h.operands
  rw [List.take_add_one, h.operator]
  exact ⟨_, hc.push (Calculator.push_ok_iff.2
    (Or.inr (Or.inr ⟨o.op, o.left, o.right, vs, o.result, rfl, hvalues, h.result, rfl⟩)))⟩

/-! ## The calculator's account -/

namespace Calculator

/-- What the calculator has completed, the latest first, with the places. -/
structure Accounts (c : Calculator) (p : Precision) (before : List Token)
    (done : List (Operation × ℕ)) : Prop where
  completed : done.map Prod.fst = c.completed
  places : (done.map Prod.snd).reverse = binaryPlaces before
  mem_done : ∀ x, x ∈ done ↔ CompletedAt p before x.2 x.1
  order : done.Pairwise fun x y => y.2 < x.2

theorem accounts_start : start.Accounts p [] [] where
  completed := rfl
  places := rfl
  mem_done x := by
    simp only [List.not_mem_nil, false_iff]
    intro h
    exact absurd h.lt_length (Nat.not_lt_zero _)
  order := .nil

/-- A number or a sign completes no operation. -/
theorem Accounts.append_of_not_isBinary (h : c.Accounts p before done)
    (htoken : token.isBinary = false) (hcompleted : next.completed = c.completed) :
    next.Accounts p (before ++ [token]) done where
  completed := by rw [h.completed, hcompleted]
  places := by simp [h.places, binaryPlaces_append, htoken]
  mem_done x := by
    rw [h.mem_done, completedAt_append, or_iff_left]
    rintro ⟨-, rfl, -⟩
    cases htoken
  order := h.order

/-- A binary operator completes an operation on the two values on top. -/
theorem Accounts.binary (h : c.Accounts p before done) (hreaches : start.Reaches p before c)
    {op : BinaryOperator} {vs : List Decimal} {r : Decimal} (hvalues : c.values = b :: a :: vs)
    (hresult : op.apply p a b = .ok r) :
    Accounts ⟨r :: vs, ⟨a, op, b, r⟩ :: c.completed⟩ p (before ++ [.operator (.binary op)])
      ((⟨a, op, b, r⟩, before.length) :: done) where
  completed := by rw [List.map_cons, h.completed]
  places := by
    rw [List.map_cons, List.reverse_cons, h.places, binaryPlaces_append]
    rfl
  mem_done x := by
    rw [List.mem_cons, h.mem_done, completedAt_append, or_comm]
    refine or_congr_right ?_
    rw [hreaches.operands_iff]
    constructor
    · rintro rfl
      exact ⟨rfl, rfl, ⟨vs, hvalues⟩, hresult⟩
    · obtain ⟨⟨left, op', right, result⟩, k⟩ := x
      rintro ⟨rfl, hop, ⟨vs', hvalues'⟩, hresult'⟩
      obtain ⟨rfl, rfl, -⟩ : b = right ∧ a = left ∧ vs = vs' := by
        simpa using hvalues.symm.trans hvalues'
      obtain rfl : op = op' := by simpa using hop
      obtain rfl : r = result := Except.ok.inj (hresult.symm.trans hresult')
      rfl
  order := by
    refine List.pairwise_cons.2 ⟨fun x hx => ?_, h.order⟩
    exact ((h.mem_done x).1 hx).lt_length

theorem Accounts.push (h : c.Accounts p before done) (hreaches : start.Reaches p before c)
    (hpush : c.push p token = .ok next) : ∃ done, next.Accounts p (before ++ [token]) done := by
  rcases push_ok_iff.1 hpush with ⟨literal, v, rfl, -, rfl⟩ | ⟨s, v, vs, rfl, -, rfl⟩ |
    ⟨op, a, b, vs, r, rfl, hvalues, hresult, rfl⟩
  · exact ⟨done, h.append_of_not_isBinary rfl rfl⟩
  · exact ⟨done, h.append_of_not_isBinary rfl rfl⟩
  · exact ⟨_, h.binary hreaches hvalues hresult⟩

theorem Reaches.exists_accounts (h : start.Reaches p before c) :
    ∃ done, c.Accounts p before done := by
  induction h with
  | refl => exact ⟨[], accounts_start⟩
  | push hreaches hpush ih =>
    obtain ⟨done, hdone⟩ := ih
    exact hdone.push hreaches hpush

/-- Nothing is completed from where the calculator stops. -/
theorem Stops.completedAt_iff {verdict : Except EvalError Decimal} (h : c.Stops p rest verdict)
    (hreaches : start.Reaches p before c) :
    CompletedAt p (before ++ rest) k o ↔ CompletedAt p before k o := by
  constructor
  · intro hk
    refine (completedAt_append_of_lt ?_).1 hk
    by_contra hge
    have hlt := hk.lt_length
    obtain ⟨last, hlast⟩ := hk.exists_reaches
    cases h with
    | finish =>
      rw [List.append_nil] at hlt
      exact hge hlt
    | @error token rest err herror =>
      -- The run would read the token at which it stops.
      have htake : (before ++ token :: rest).take (k + 1) =
          before ++ [token] ++ rest.take (k - before.length) := by
        rw [List.take_append, List.take_of_length_le (by omega), List.append_assoc,
          show k + 1 - before.length = k - before.length + 1 by omega]
        rfl
      rw [htake, reaches_append] at hlast
      obtain ⟨next, hnext, -⟩ := hlast
      obtain ⟨mid, hmid, hpush⟩ := reaches_append_singleton.1 hnext
      rw [← hreaches.unique hmid, herror] at hpush
      cases hpush
  · intro hk
    exact (completedAt_append_of_lt hk.lt_length).2 hk

theorem push_divisionByZero (h : c.push p token = .error .divisionByZero) :
    token = .operator (.binary .div) ∧ ∃ a b vs, c.values = b :: a :: vs ∧ b.isZero = true := by
  cases token with
  | number literal =>
    cases hv : Decimal.parse literal with
    | ok v => simp [push, hv] at h
    | error err =>
      obtain rfl : err = .divisionByZero := by simpa [push, hv] using h
      simp [Decimal.parse_eq_error_iff] at hv
  | operator op =>
    cases op with
    | sign s => cases hc : c.values <;> simp [push, hc] at h
    | binary op =>
      rcases hc : c.values with _ | ⟨b, _ | ⟨a, vs⟩⟩
      · simp [push, hc] at h
      · simp [push, hc] at h
      · cases hr : op.apply p a b with
        | ok r => simp [push, hc, hr] at h
        | error err =>
          obtain rfl : err = .divisionByZero := by simpa [push, hc, hr] using h
          obtain ⟨-, rfl, hb⟩ := BinaryOperator.apply_error_iff.1 hr
          exact ⟨rfl, a, b, vs, rfl, hb⟩
  | opening | closing => cases h

/-- A division by zero is the fault of a division whose right operand is zero. -/
theorem Stops.division (h : c.Stops p rest (.error .divisionByZero)) :
    ∃ tail a b vs, rest = .operator (.binary .div) :: tail ∧ c.values = b :: a :: vs ∧
      b.isZero = true := by
  generalize hverdict : Except.error EvalError.divisionByZero = verdict at h
  cases h with
  | finish =>
    rw [Calculator.finish] at hverdict
    split at hverdict <;> cases hverdict
  | @error token rest err hpush =>
    obtain rfl := Except.error.inj hverdict
    obtain ⟨rfl, a, b, vs, hvalues, hb⟩ := push_divisionByZero hpush
    exact ⟨rest, a, b, vs, rfl, hvalues, hb⟩

end Calculator

/-! ## The calculation -/

/-- A calculation completes its operations in the order of the list: all of them if there is a
value, and those before the failing division if there is a division by zero. -/
theorem exists_isCompletionOrder (p : Precision) (rpn : List Token) :
    ∃ done, IsCompletionOrder p rpn done ∧ (calculate p rpn).completed = done.map Prod.fst ∧
      (∀ v, evalRpn p rpn = .ok v → done.map Prod.snd = binaryPlaces rpn) ∧
      (evalRpn p rpn = .error .divisionByZero →
        ∃ k, DividesByZeroAt p rpn k ∧ done.map Prod.snd = binaryPlaces (rpn.take k)) := by
  obtain ⟨read, rest, last, htokens, hreaches, hstops, hcompleted⟩ :=
    Calculator.exists_stops (.refl (p := p) (c := Calculator.start)) rpn
  rw [List.nil_append] at htokens
  obtain ⟨done, hdone⟩ := hreaches.exists_accounts
  have hplaces : done.reverse.map Prod.snd = binaryPlaces read := by
    rw [List.map_reverse, hdone.places]
  refine ⟨done.reverse, ⟨fun x => ?_, List.pairwise_reverse.2 hdone.order⟩, ?_, ?_, ?_⟩
  · rw [List.mem_reverse, hdone.mem_done, ← htokens, hstops.completedAt_iff hreaches]
  · rw [calculate, hcompleted, List.map_reverse, hdone.completed]
  · intro v hv
    rw [evalRpn, calculate] at hv
    rw [hv] at hstops
    obtain ⟨rfl, -⟩ := Calculator.stops_ok_iff.1 hstops
    rw [List.append_nil] at htokens
    rw [hplaces, htokens]
  · intro herror
    rw [evalRpn, calculate] at herror
    rw [herror] at hstops
    obtain ⟨tail, a, b, vs, rfl, hvalues, hb⟩ := hstops.division
    refine ⟨read.length, ⟨?_, a, b, ?_, hb⟩, ?_⟩
    · rw [← htokens]
      simp
    · rw [← htokens, List.take_left, hreaches.operands_iff]
      exact ⟨vs, hvalues⟩
    · rw [← htokens, List.take_left, hplaces]

end

end ExactCalculator
