import ExactCalculator.Proofs.Journal.Completion
import ExactCalculator.Proofs.Journal.Popping

/-!
# What the journal of an evaluation tells

A record is told by its severity and its message. The journal of a text tells what was read, which
operators were popped on the way to reverse Polish notation, which operations were completed, and
the value, and it ends where the evaluation ends (`journal_tells`). The operators and the operations
are described without the program, by `IsPopOrder` and `IsCompletionOrder`.
-/

namespace ExactCalculator

open Conversion Calculation

/-! ## Records as they are told -/

def Record.told (r : Record) : Severity × String := (r.severity, r.message)

/-- All that the journal of a text tells. -/
def toldJournal (p : Precision) (text : String) : List (Severity × String) :=
  (report p text).journal.map Record.told

/-- The tokens that are read, and the operators that are popped from them. -/
def toldConversion (tokens : List Token) (pops : List Pop) : List (Severity × String) :=
  (.debug, "jetons: " ++ Token.format tokens) ::
    pops.map fun x => (.trace, "dépile " ++ x.op.symbol)

/-- The tokens that are calculated, and the operations that are completed on them. -/
def toldCalculation (rpn : List Token) (done : List (Operation × ℕ)) :
    List (Severity × String) :=
  (.debug, "rpn: " ++ Token.format rpn) :: done.map fun x =>
    (.trace, x.1.left.toText ++ " " ++ (Operator.binary x.1.op).symbol ++ " " ++ x.1.right.toText
      ++ " = " ++ x.1.result.toText)

def toldResult (p : Precision) (v : Decimal) : Severity × String :=
  (.debug, "résultat: " ++ v.toText ++ " (précision " ++ toString p.digits ++ ")")

variable {p : Precision} {text : String} {tokens rpn : List Token}

/-! ## The journal of each stage -/

theorem toldJournal_of_isBlank (h : ∀ c ∈ text.toList, Text.isBlank c = true) :
    toldJournal p text = [] := by
  rw [toldJournal, report, Text.trim_eq_nil_iff.2 h]
  rfl

theorem toldJournal_of_tokenize_error {err : EvalError} (h : Token.tokenize text = .error err) :
    toldJournal p text = [] := by
  rw [toldJournal, report_of_tokenize_error h]
  rfl

/-- A text that is read leaves the journal of its tokens. -/
theorem toldJournal_of_tokenize (hblank : ∃ c ∈ text.toList, Text.isBlank c = false)
    (htokens : Token.tokenize text = .ok tokens) :
    toldJournal p text = (reportTokens p tokens).journal.map Record.told := by
  have htrim : Text.trim text.toList ≠ [] := by
    intro hnil
    obtain ⟨c, hc, hnot⟩ := hblank
    rw [Text.trim_eq_nil_iff.1 hnil c hc] at hnot
    cases hnot
  rw [toldJournal, report_of_tokenize htrim htokens]

section

variable {pops : List Pop} {done : List (Operation × ℕ)}

theorem told_popped (hpops : (convert tokens).popped = pops.map Pop.op) :
    (Record.tokensRead tokens :: (convert tokens).popped.map .operatorPopped).map Record.told =
      toldConversion tokens pops := by
  rw [hpops, List.map_cons, List.map_map, List.map_map]
  rfl

theorem told_completed (hdone : (calculate p rpn).completed = done.map Prod.fst) :
    (Record.rpnMade rpn :: (calculate p rpn).completed.map .operationCompleted).map Record.told =
      toldCalculation rpn done := by
  rw [hdone, List.map_cons, List.map_map, List.map_map]
  rfl

/-- When the tokens are not converted, nothing more is told. -/
theorem told_of_toRpn_error {err : EvalError} (h : toRpn tokens = .error err)
    (hpops : (convert tokens).popped = pops.map Pop.op) :
    (reportTokens p tokens).journal.map Record.told = toldConversion tokens pops := by
  rw [toRpn] at h
  simp only [reportTokens, h]
  exact told_popped hpops

/-- When the tokens are converted, the calculation is told, and its value if there is one. -/
theorem told_of_toRpn (h : toRpn tokens = .ok rpn)
    (hpops : (convert tokens).popped = pops.map Pop.op)
    (hdone : (calculate p rpn).completed = done.map Prod.fst) :
    (reportTokens p tokens).journal.map Record.told =
      toldConversion tokens pops ++ toldCalculation rpn done ++
        (evalRpn p rpn).toOption.toList.map (toldResult p) := by
  rw [toRpn] at h
  rw [← told_popped hpops, ← told_completed hdone, evalRpn]
  cases hv : (calculate p rpn).verdict with
  | error err => simp [reportTokens, h, hv, Except.toOption]
  | ok v =>
    have hresult : Record.told (.resultFound v p) = toldResult p v := rfl
    simp [reportTokens, h, hv, Except.toOption, hresult]

end

/-- The binary operators are the same before and after the conversion. -/
theorem countP_isBinary_of_toRpn (h : toRpn tokens = .ok rpn) :
    rpn.countP Token.isBinary = (readings [] tokens).countP Token.isBinary := by
  have hoperator : ∀ ts : List Token,
      (ts.filter Token.isOperator).countP Token.isBinary = ts.countP Token.isBinary := by
    intro ts
    rw [List.countP_filter]
    refine List.countP_congr fun token _ => ?_
    cases token with
    | operator op => simp [Token.isOperator]
    | number | opening | closing => simp [Token.isBinary]
  obtain ⟨⟨placed, horder⟩, -⟩ := exists_isOrderOf h
  rw [← hoperator rpn, horder.filter_isOperator_perm.countP_eq, hoperator]

/-- The journal of a text is an account of its evaluation, in order. Nothing is told of a text that
is blank or cannot be read. Of any other the tokens are told and the operators that are popped while
they are converted, in the order in which they are written; then, if they are converted, the tokens
in reverse Polish notation and the operations that are completed on them, in order; and then the
value, if there is one. With a value the operations are as many as the binary operators that were
read; with a division by zero there is one for each binary operator before the failing one. -/
theorem journal_tells (p : Precision) (text : String) :
    ((∀ c ∈ text.toList, Text.isBlank c = true) → toldJournal p text = []) ∧
    (∀ err, Token.tokenize text = .error err → toldJournal p text = []) ∧
    ∀ tokens, (∃ c ∈ text.toList, Text.isBlank c = false) → Token.tokenize text = .ok tokens →
      ∃ pops, IsPopOrder tokens pops ∧
        (∀ err, toRpn tokens = .error err → toldJournal p text = toldConversion tokens pops) ∧
        ∀ rpn, toRpn tokens = .ok rpn →
          (∃ placed, IsOrderOf placed tokens rpn ∧ (pops.map Pop.token).Sublist placed) ∧
          ∃ done, IsCompletionOrder p rpn done ∧
            (∀ v, evaluate p text = .ok v →
              toldJournal p text =
                toldConversion tokens pops ++ toldCalculation rpn done ++ [toldResult p v] ∧
              done.map Prod.snd = binaryPlaces rpn ∧
              done.length = (readings [] tokens).countP Token.isBinary) ∧
            (∀ err, evaluate p text = .error err →
              toldJournal p text = toldConversion tokens pops ++ toldCalculation rpn done) ∧
            (evaluate p text = .error .divisionByZero →
              ∃ k, DividesByZeroAt p rpn k ∧
                done.map Prod.snd = binaryPlaces (rpn.take k)) := by
  refine ⟨toldJournal_of_isBlank, fun err => toldJournal_of_tokenize_error, ?_⟩
  intro tokens hblank htokens
  rw [toldJournal_of_tokenize hblank htokens]
  obtain ⟨pops, horder, hpops, hplaced⟩ := exists_isPopOrder tokens
  refine ⟨pops, horder, fun err herr => told_of_toRpn_error herr hpops, ?_⟩
  intro rpn hrpn
  obtain ⟨done, hcompletion, hdone, hvalue, hdivision⟩ := exists_isCompletionOrder p rpn
  have htold := told_of_toRpn hrpn hpops hdone
  rw [evaluate_of_toRpn htokens hrpn]
  refine ⟨hplaced rpn hrpn, done, hcompletion, ?_, ?_, hdivision⟩
  · intro v hv
    refine ⟨by simpa [hv, Except.toOption] using htold, hvalue v hv, ?_⟩
    rw [← countP_isBinary_of_toRpn hrpn, ← length_binaryPlaces, ← hvalue v hv, List.length_map]
  · intro err herr
    simpa [herr, Except.toOption] using htold

/-- The text `(1-2)*3/0+4` pops a product and a division, and completes a difference and a product
before the division fails. -/
theorem failing_division_told :
    ∃ tokens rpn pops done k, IsPopOrder tokens pops ∧
      (∃ placed, IsOrderOf placed tokens rpn ∧ (pops.map Pop.token).Sublist placed) ∧
      IsCompletionOrder .standard rpn done ∧ DividesByZeroAt .standard rpn k ∧
      done.map Prod.snd = binaryPlaces (rpn.take k) ∧
      toldConversion tokens pops ++ toldCalculation rpn done =
        [(.debug, "jetons: ( 1 - 2 ) * 3 / 0 + 4"), (.trace, "dépile *"), (.trace, "dépile /"),
          (.debug, "rpn: 1 2 - 3 * 0 / 4 +"), (.trace, "1 - 2 = -1"), (.trace, "-1 * 3 = -3")] := by
  have htokens : Token.tokenize "(1-2)*3/0+4" = .ok [.opening, .number "1",
      .operator (.binary .sub), .number "2", .closing, .operator (.binary .mul), .number "3",
      .operator (.binary .div), .number "0", .operator (.binary .add), .number "4"] := by
    decide +kernel
  have hrpn : toRpn [.opening, .number "1", .operator (.binary .sub), .number "2", .closing,
      .operator (.binary .mul), .number "3", .operator (.binary .div), .number "0",
      .operator (.binary .add), .number "4"] = .ok [.number "1", .number "2",
        .operator (.binary .sub), .number "3", .operator (.binary .mul), .number "0",
        .operator (.binary .div), .number "4", .operator (.binary .add)] := by decide
  have hfails : evaluate .standard "(1-2)*3/0+4" = .error .divisionByZero := by decide +kernel
  obtain ⟨pops, hpops, -, hconverted⟩ := (journal_tells .standard "(1-2)*3/0+4").2.2 _
    ⟨'1', by decide +kernel, by decide +kernel⟩ htokens
  obtain ⟨hplaced, done, hdone, -, herror, hdivision⟩ := hconverted _ hrpn
  obtain ⟨k, hk, hplaces⟩ := hdivision hfails
  refine ⟨_, _, pops, done, k, hpops, hplaced, hdone, hk, hplaces, ?_⟩
  rw [← herror _ hfails]
  decide +kernel

end ExactCalculator
