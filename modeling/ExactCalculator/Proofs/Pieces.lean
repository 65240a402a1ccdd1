import ExactCalculator.Proofs.Literal
import ExactCalculator.Proofs.Scanning

/-!
# The pieces of a text

Every text splits in exactly one way into longest runs of digits and points and other single
characters (`splits_iff`). A run is sound when it is a literal, another character when it is a blank
or a symbol. Reading takes one piece after the other (`Splits.readsAll`), so it succeeds when all
pieces are sound and otherwise fails with the fault of the first one that is not. Main statement:
`tokenize_pieces`.
-/

namespace ExactCalculator

namespace Token

inductive Piece where
  | run (cs : List Char)
  | other (c : Char)
  deriving DecidableEq, Repr

namespace Piece

def chars : Piece → List Char
  | run cs => cs
  | other c => [c]

def isBlank : Piece → Bool
  | run _ => false
  | other c => Text.isBlank c

@[simp] theorem isBlank_run (cs : List Char) : (run cs).isBlank = false := rfl

@[simp] theorem isBlank_other (c : Char) : (other c).isBlank = Text.isBlank c := rfl

def IsSound : Piece → Prop
  | run cs => (∃ c ∈ cs, c.isDigit = true) ∧ cs.count '.' ≤ 1
  | other c => Text.isBlank c = true ∨ c ∈ ['+', '-', '*', '/', '(', ')']

/-- The error that a piece causes when it is not sound. -/
def fault : Piece → EvalError
  | run cs => .malformedNumber (String.ofList cs)
  | other c => .invalidCharacter c

/-- The one token that a piece stands for. No piece stands for a sign. -/
inductive Spells : Piece → Token → Prop
  | number (cs : List Char) : Spells (run cs) (.number (String.ofList cs))
  | operator {c : Char} {op : BinaryOperator} :
      (Operator.binary op).symbol = String.singleton c →
      Spells (other c) (.operator (.binary op))
  | opening : Spells (other '(') .opening
  | closing : Spells (other ')') .closing

theorem Spells.toList_text {x : Piece} {token : Token} (h : x.Spells token) :
    token.text.toList = x.chars := by
  cases h with
  | number cs => exact String.toList_ofList
  | operator h => rw [text, h, String.toList_singleton, chars]
  | opening => rfl
  | closing => rfl

end Piece

/-! ## Splitting -/

/-- The text consists of these pieces, and no run continues in the next piece. -/
inductive Splits : List Char → List Piece → Prop
  | nil : Splits [] []
  | other {c : Char} {cs : List Char} {ps : List Piece} :
      isNumeral c = false → Splits cs ps → Splits (c :: cs) (.other c :: ps)
  | run {run cs : List Char} {ps : List Piece} :
      run ≠ [] → (∀ c ∈ run, isNumeral c = true) → (∀ c ∈ cs.head?, isNumeral c = false) →
      Splits cs ps → Splits (run ++ cs) (.run run :: ps)

/-- The pieces of a text. A numeral joins the run that comes after it. -/
def pieces : List Char → List Piece
  | [] => []
  | c :: cs =>
    if isNumeral c then
      match pieces cs with
      | .run ds :: ps => .run (c :: ds) :: ps
      | ps => .run [c] :: ps
    else .other c :: pieces cs

theorem splits_pieces (cs : List Char) : Splits cs (pieces cs) := by
  induction cs with
  | nil => exact .nil
  | cons c cs ih =>
    by_cases hc : isNumeral c = true
    · have hone : ∀ d ∈ [c], isNumeral d = true := by simpa using hc
      rw [pieces, if_pos hc]
      generalize pieces cs = ps at ih
      cases ih with
      | nil => exact .run (List.cons_ne_nil c []) hone (by simp) .nil
      | other hd h => exact .run (List.cons_ne_nil c []) hone (by simpa using hd) (.other hd h)
      | run hne hrun hhead h =>
        exact .run (List.cons_ne_nil c _) (List.forall_mem_cons.2 ⟨hc, hrun⟩) hhead h
    · rw [pieces, if_neg hc]
      exact .other (Bool.eq_false_iff.2 hc) ih

/-- A numeral in front of pieces joins them only if they begin with a run. -/
theorem pieces_run {run cs : List Char} (hne : run ≠ []) (hrun : ∀ c ∈ run, isNumeral c = true)
    (hcs : ∀ c ∈ cs.head?, isNumeral c = false) :
    pieces (run ++ cs) = .run run :: pieces cs := by
  induction run with
  | nil => exact absurd rfl hne
  | cons c run ih =>
    obtain ⟨hc, hrun⟩ := List.forall_mem_cons.1 hrun
    rw [List.cons_append, pieces, if_pos hc]
    cases run with
    | nil =>
      cases cs with
      | nil => rfl
      | cons d cs =>
        rw [List.nil_append, pieces, if_neg (Bool.eq_false_iff.1 (hcs d rfl))]
    | cons d run => rw [ih (List.cons_ne_nil d run) hrun]

theorem splits_iff {cs : List Char} {ps : List Piece} : Splits cs ps ↔ ps = pieces cs := by
  constructor
  · intro h
    induction h with
    | nil => rfl
    | other hc _ ih => rw [pieces, if_neg (Bool.eq_false_iff.1 hc), ih]
    | run hne hrun hhead _ ih => rw [pieces_run hne hrun hhead, ih]
  · rintro rfl
    exact splits_pieces cs

/-! ## Reading the pieces -/

/-- What reading gives, from what it gives on the pieces that follow. -/
inductive Piece.Reads (x : Piece) (rest : Except EvalError (List Token)) :
    Except EvalError (List Token) → Prop
  | blank : x.isBlank = true → x.IsSound → Reads x rest rest
  | token {token : Token} : x.isBlank = false → x.IsSound → x.Spells token →
      Reads x rest (rest.map (token :: ·))
  | fault : ¬ x.IsSound → Reads x rest (.error x.fault)

theorem isNumeral_of_isLiteral {cs : List Char} (h : isLiteral cs = true) :
    ∀ c ∈ cs, isNumeral c = true := by
  intro c hc
  simpa [isNumeral] using (isLiteral_iff.1 h).1 c hc

theorem scan_literal {cs : List Char} (h : isLiteral cs = true) :
    scan cs = .ok [number (String.ofList cs)] := by
  have hne : cs ≠ [] := by
    rintro rfl
    cases h
  have hnil : ∀ c ∈ ([] : List Char).head?, isNumeral c = false := by simp
  have hrun := scan_run hne (isNumeral_of_isLiteral h) hnil
  rw [if_pos h, List.append_nil, scan] at hrun
  exact hrun

theorem isSound_run_iff {run : List Char} (hrun : ∀ c ∈ run, isNumeral c = true) :
    (Piece.run run).IsSound ↔ isLiteral run = true := by
  have hchars : ∀ c ∈ run, c.isDigit = true ∨ c = '.' := by
    intro c hc
    simpa [isNumeral] using hrun c hc
  rw [isLiteral_iff, Piece.IsSound, and_comm (a := ∃ c ∈ run, c.isDigit = true)]
  exact (and_iff_right hchars).symm

theorem reads_run {run cs : List Char} (hne : run ≠ []) (hrun : ∀ c ∈ run, isNumeral c = true)
    (hcs : ∀ c ∈ cs.head?, isNumeral c = false) :
    (Piece.run run).Reads (scan cs) (scan (run ++ cs)) := by
  rw [scan_run hne hrun hcs]
  by_cases hl : isLiteral run = true
  · rw [if_pos hl]
    exact .token rfl ((isSound_run_iff hrun).2 hl) (.number run)
  · rw [if_neg hl]
    exact .fault (mt (isSound_run_iff hrun).1 hl)

theorem isSymbol_and_spells {c : Char} {token : Token} (h : ofSymbol? c = some token) :
    c ∈ ['+', '-', '*', '/', '(', ')'] ∧ (Piece.other c).Spells token := by
  unfold ofSymbol? at h
  split at h
  case h_1 => cases h; exact ⟨by simp, .opening⟩
  case h_2 => cases h; exact ⟨by simp, .closing⟩
  case h_7 => cases h
  all_goals
    cases h
    exact ⟨by simp, .operator rfl⟩

theorem reads_other {c : Char} (hc : isNumeral c = false) (cs : List Char) :
    (Piece.other c).Reads (scan cs) (scan (c :: cs)) := by
  by_cases hb : Text.isBlank c = true
  · rw [scan_blank hb]
    exact .blank hb (Or.inl hb)
  · cases ht : ofSymbol? c with
    | some token =>
      obtain ⟨hsymbol, hspells⟩ := isSymbol_and_spells ht
      rw [scan_symbol ht]
      exact .token (Bool.eq_false_iff.2 hb) (Or.inr hsymbol) hspells
    | none =>
      have hunknown : ¬ (Piece.other c).IsSound := by
        rintro (h | h)
        · exact hb h
        · simp only [List.mem_cons, List.not_mem_nil, or_false] at h
          rcases h with rfl | rfl | rfl | rfl | rfl | rfl <;> cases ht
      rw [scan, if_neg hb, ht]
      simp only [hc, Bool.false_eq_true, ↓reduceIte]
      exact .fault hunknown

inductive ReadsAll : List Piece → Except EvalError (List Token) → Prop
  | nil : ReadsAll [] (.ok [])
  | cons {x : Piece} {ps : List Piece} {rest result : Except EvalError (List Token)} :
      x.Reads rest result → ReadsAll ps rest → ReadsAll (x :: ps) result

theorem Splits.readsAll {cs : List Char} {ps : List Piece} (h : Splits cs ps) :
    ReadsAll ps (scan cs) := by
  induction h with
  | nil =>
    rw [scan]
    exact .nil
  | other hc _ ih => exact .cons (reads_other hc _) ih
  | run hne hrun hhead _ ih => exact .cons (reads_run hne hrun hhead) ih

/-- The error of the first piece that is not sound. -/
def FirstFault (ps : List Piece) (err : EvalError) : Prop :=
  ∃ before x after, ps = before ++ x :: after ∧ (∀ y ∈ before, y.IsSound) ∧ ¬ x.IsSound ∧
    err = x.fault

theorem exists_firstFault {ps : List Piece} (h : ¬ ∀ x ∈ ps, x.IsSound) :
    ∃ err, FirstFault ps err := by
  induction ps with
  | nil => simp at h
  | cons x ps ih =>
    by_cases hx : x.IsSound
    · rw [List.forall_mem_cons, not_and] at h
      obtain ⟨_, before, y, after, rfl, hbefore, hy, -⟩ := ih (h hx)
      exact ⟨_, x :: before, y, after, rfl, List.forall_mem_cons.2 ⟨hx, hbefore⟩, hy, rfl⟩
    · exact ⟨_, [], x, ps, rfl, by simp, hx, rfl⟩

theorem ReadsAll.exists_ok {ps : List Piece} {result : Except EvalError (List Token)}
    (h : ReadsAll ps result) (hsound : ∀ x ∈ ps, x.IsSound) :
    ∃ tokens, result = .ok tokens ∧
      List.Forall₂ Piece.Spells (ps.filter (!·.isBlank)) tokens := by
  induction h with
  | nil => exact ⟨[], rfl, .nil⟩
  | @cons x ps rest result hread _ ih =>
    obtain ⟨hx, hps⟩ := List.forall_mem_cons.1 hsound
    obtain ⟨tokens, rfl, hspells⟩ := ih hps
    cases hread with
    | blank hb => exact ⟨tokens, rfl, by simpa [hb] using hspells⟩
    | @token token hb _ ht => exact ⟨token :: tokens, rfl, by simpa [hb] using ⟨ht, hspells⟩⟩
    | fault hnot => exact absurd hx hnot

theorem ReadsAll.eq_error {ps : List Piece} {result : Except EvalError (List Token)}
    {err : EvalError} (h : ReadsAll ps result) (hfault : FirstFault ps err) :
    result = .error err := by
  obtain ⟨before, x, after, rfl, hbefore, hx, rfl⟩ := hfault
  induction before generalizing result with
  | nil =>
    cases h with
    | cons hread _ =>
      cases hread with
      | blank _ hsound => exact absurd hsound hx
      | token _ hsound _ => exact absurd hsound hx
      | fault _ => rfl
  | cons y before ih =>
    obtain ⟨hy, hbefore⟩ := List.forall_mem_cons.1 hbefore
    cases h with
    | cons hread hrest =>
      obtain rfl := ih hrest hbefore
      cases hread with
      | blank _ _ => rfl
      | token _ _ _ => rfl
      | fault hnot => exact absurd hy hnot

/-! ## The characters of the tokens -/

theorem Splits.filter_chars {cs : List Char} {ps : List Piece} (h : Splits cs ps) :
    (ps.filter (!·.isBlank)).flatMap Piece.chars = cs.filter (!Text.isBlank ·) := by
  induction h with
  | nil => rfl
  | @other c cs ps _ _ ih =>
    cases hb : Text.isBlank c <;> simp [Piece.chars, hb, ih]
  | @run run cs ps _ hrun _ _ ih =>
    have hkeep : run.filter (!Text.isBlank ·) = run := by
      rw [List.filter_eq_self]
      intro c hc
      cases hb : Text.isBlank c with
      | false => rfl
      | true =>
        have hnumeral := hrun c hc
        rw [not_isNumeral_of_isBlank hb] at hnumeral
        cases hnumeral
    simp [Piece.chars, hkeep, ih]

theorem flatMap_text_of_spells {ps : List Piece} {tokens : List Token}
    (h : List.Forall₂ Piece.Spells ps tokens) :
    tokens.flatMap (·.text.toList) = ps.flatMap Piece.chars := by
  induction h with
  | nil => rfl
  | cons hspells _ ih => rw [List.flatMap_cons, List.flatMap_cons, hspells.toList_text, ih]

/-! ## Reading a text -/

/-- A text splits in one way, and is read exactly when all pieces are sound. The tokens are then one
for each piece that is not a blank, in order, none of them a sign; together they are spelled as the
text without its blanks, and every number among them can be calculated with. Otherwise the error is
that of the first piece that is not sound. -/
theorem tokenize_pieces (text : String) :
    (∀ ps, Splits text.toList ps ↔ ps = pieces text.toList) ∧
    ((∃ tokens, tokenize text = .ok tokens) ↔ ∀ x ∈ pieces text.toList, x.IsSound) ∧
    (∀ tokens, tokenize text = .ok tokens →
      List.Forall₂ Piece.Spells ((pieces text.toList).filter (!·.isBlank)) tokens ∧
      (∀ s, .operator (.sign s) ∉ tokens) ∧
      String.join (tokens.map Token.text) =
        String.ofList (text.toList.filter (!Text.isBlank ·)) ∧
      ∀ literal, .number literal ∈ tokens → ∃ d, Decimal.parse literal = .ok d) ∧
    ∀ err, tokenize text = .error err ↔ FirstFault (pieces text.toList) err := by
  have hsplits := splits_pieces text.toList
  have hreads := hsplits.readsAll
  have herror : (¬ ∀ x ∈ pieces text.toList, x.IsSound) →
      ∃ err, FirstFault (pieces text.toList) err ∧ tokenize text = .error err := by
    intro hnot
    obtain ⟨err, hfault⟩ := exists_firstFault hnot
    exact ⟨err, hfault, hreads.eq_error hfault⟩
  have hsound : (∃ tokens, tokenize text = .ok tokens) → ∀ x ∈ pieces text.toList, x.IsSound := by
    rintro ⟨tokens, hok⟩
    by_contra hnot
    obtain ⟨err, -, herr⟩ := herror hnot
    rw [hok] at herr
    cases herr
  refine ⟨fun ps => splits_iff, ⟨hsound, ?_⟩, ?_, ?_⟩
  · intro h
    obtain ⟨tokens, hok, -⟩ := hreads.exists_ok h
    exact ⟨tokens, hok⟩
  · intro tokens hok
    obtain ⟨tokens', hok', hspells⟩ := hreads.exists_ok (hsound ⟨tokens, hok⟩)
    obtain rfl := Except.ok.inj (hok.symm.trans hok')
    have hwritten := isWritten_of_mem_scan hok
    refine ⟨hspells, fun s hs => hwritten _ hs, ?_, ?_⟩
    · rw [← String.toList_inj, String.toList_join, List.flatMap_map, String.toList_ofList,
        flatMap_text_of_spells hspells, hsplits.filter_chars]
    · intro literal hmem
      obtain ⟨d, hd, -⟩ := Decimal.parse_of_isLiteral (hwritten _ hmem)
      exact ⟨d, hd⟩
  · intro err
    constructor
    · intro herr
      have hnot : ¬ ∀ x ∈ pieces text.toList, x.IsSound := by
        intro h
        obtain ⟨tokens, hok, -⟩ := hreads.exists_ok h
        rw [tokenize, hok] at herr
        cases herr
      obtain ⟨err', hfault, herr'⟩ := herror hnot
      obtain rfl := Except.error.inj (herr.symm.trans herr')
      exact hfault
    · exact hreads.eq_error

/-- An Arabic digit is reported, not the two points after it; points at the ends of numbers are
read. -/
theorem tokenize_foreign_digit :
    tokenize "2*٣ 1..2" = .error (.invalidCharacter '٣') ∧
      tokenize " (.5*5." = .ok [.opening, .number ".5", .operator (.binary .mul), .number "5."] ∧
      ∃ d, Decimal.parse "5." = .ok d := by
  have hbefore : ∀ y ∈ [Piece.run ['2'], Piece.other '*'], y.IsSound := by simp [Piece.IsSound]
  have hforeign : ¬ (Piece.other '٣').IsSound := by
    rintro (h | h)
    · cases h
    · simp at h
  have hfault : FirstFault (pieces "2*٣ 1..2".toList) (.invalidCharacter '٣') :=
    ⟨_, _, [.other ' ', .run ['1', '.', '.', '2']], by decide, hbefore, hforeign, rfl⟩
  have hread : tokenize " (.5*5." =
      .ok [.opening, .number ".5", .operator (.binary .mul), .number "5."] := by decide +kernel
  obtain ⟨-, -, -, hparse⟩ := (tokenize_pieces " (.5*5.").2.2.1 _ hread
  exact ⟨((tokenize_pieces _).2.2.2 _).2 hfault, hread, hparse "5." (by simp)⟩

end Token

end ExactCalculator
