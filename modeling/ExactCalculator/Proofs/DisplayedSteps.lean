import ExactCalculator.Proofs.Parentheses
import ExactCalculator.Proofs.Pieces

/-!
# Displayed tokens are read back

Tokens are displayed with one space between them. No token is spelled with a space, so the
spellings are what the spaces separate (`splitOn_format`), and a spelling belongs to one token only
(`eq_of_text_eq`): what is displayed determines the tokens, signs included. A list without signs is
read back from its display (`scan_format`). Main statement: `displayed_steps_read_back`.
-/

namespace ExactCalculator

namespace Token

/-! ## Spellings -/

/-- If it is a number, it is spelled as a literal. Signs are allowed, although none is ever read. -/
def HasLiteral : Token → Prop
  | number literal => isLiteral literal.toList = true
  | operator _ | opening | closing => True

instance : DecidablePred HasLiteral
  | number _ => inferInstanceAs (Decidable (_ = true))
  | operator _ | opening | closing => inferInstanceAs (Decidable True)

theorem IsWritten.hasLiteral {token : Token} (h : token.IsWritten) : token.HasLiteral := by
  cases token with
  | number literal => exact h
  | _ => trivial

/-- The tokens that are spelled in one way. -/
def symbols : List Token :=
  [operator (.binary .add), operator (.binary .sub), operator (.binary .mul),
    operator (.binary .div), operator (.sign .plus), operator (.sign .minus), opening, closing]

theorem number_or_mem_symbols (token : Token) :
    (∃ literal, token = number literal) ∨ token ∈ symbols := by
  cases token with
  | number literal => exact Or.inl ⟨literal, rfl⟩
  | operator op =>
    right
    cases op with
    | binary op => cases op <;> decide
    | sign s => cases s <;> decide
  | opening => exact Or.inr (by decide)
  | closing => exact Or.inr (by decide)

theorem find?_symbols : ∀ token ∈ symbols, symbols.find? (·.text == token.text) = some token := by
  decide

theorem text_symbols : ∀ token ∈ symbols,
    ' ' ∉ token.text.toList ∧ token.text.toList.any (!isNumeral ·) = true := by
  decide

theorem exists_not_isNumeral {token : Token} (h : token ∈ symbols) :
    ∃ c ∈ token.text.toList, isNumeral c = false := by
  simpa using (text_symbols token h).2

theorem space_notMem_text {token : Token} (h : token.HasLiteral) : ' ' ∉ token.text.toList := by
  rcases number_or_mem_symbols token with ⟨literal, rfl⟩ | hs
  · intro hspace
    have hnumeral := isNumeral_of_isLiteral h ' ' hspace
    cases hnumeral
  · exact (text_symbols token hs).1

theorem text_ne_nil {token : Token} (h : token.HasLiteral) : token.text.toList ≠ [] := by
  rcases number_or_mem_symbols token with ⟨literal, rfl⟩ | hs
  · obtain ⟨-, -, c, hc, -⟩ := isLiteral_iff.1 h
    exact List.ne_nil_of_mem hc
  · obtain ⟨c, hc, -⟩ := exists_not_isNumeral hs
    exact List.ne_nil_of_mem hc

theorem eq_of_text_eq {t u : Token} (ht : t.HasLiteral) (hu : u.HasLiteral)
    (h : t.text = u.text) : t = u := by
  rcases number_or_mem_symbols t with ⟨a, rfl⟩ | hts <;>
    rcases number_or_mem_symbols u with ⟨b, rfl⟩ | hus
  · exact congrArg number h
  · obtain ⟨c, hc, hnot⟩ := exists_not_isNumeral hus
    rw [← h] at hc
    rw [isNumeral_of_isLiteral ht c hc] at hnot
    cases hnot
  · obtain ⟨c, hc, hnot⟩ := exists_not_isNumeral hts
    rw [h] at hc
    rw [isNumeral_of_isLiteral hu c hc] at hnot
    cases hnot
  · have hfind := find?_symbols t hts
    rw [h, find?_symbols u hus] at hfind
    exact (Option.some.inj hfind).symm

/-! ## What is displayed -/

variable {ts us : List Token}

/-- The spaces of a display separate the spellings of its tokens. -/
theorem splitOn_format (hne : ts ≠ []) (h : ∀ t ∈ ts, t.HasLiteral) :
    (format ts).toList.splitOn ' ' = ts.map (·.text.toList) := by
  have hspace : ∀ cs ∈ ts.map (·.text.toList), ' ' ∉ cs := by
    intro cs hcs
    obtain ⟨t, ht, rfl⟩ := List.mem_map.1 hcs
    exact space_notMem_text (h t ht)
  rw [format, String.toList_intercalate, List.map_map]
  exact List.splitOn_intercalate ' ' hspace (by simpa using hne)

theorem format_ne_empty (hne : ts ≠ []) (h : ∀ t ∈ ts, t.HasLiteral) : format ts ≠ "" := by
  intro hempty
  have hsplit := splitOn_format hne h
  rw [hempty, String.toList_empty, List.splitOn_nil] at hsplit
  cases ts with
  | nil => exact hne rfl
  | cons t ts =>
    rw [List.map_cons] at hsplit
    exact text_ne_nil (h t (by simp)) (List.cons.inj hsplit).1.symm

theorem eq_of_map_text_eq (hts : ∀ t ∈ ts, t.HasLiteral) (hus : ∀ u ∈ us, u.HasLiteral)
    (h : ts.map (·.text.toList) = us.map (·.text.toList)) : ts = us := by
  induction ts generalizing us with
  | nil => exact (List.map_eq_nil_iff.1 h.symm).symm
  | cons t ts ih =>
    cases us with
    | nil => cases h
    | cons u us =>
      obtain ⟨htext, hrest⟩ := List.cons.inj h
      obtain ⟨ht, hts⟩ := List.forall_mem_cons.1 hts
      obtain ⟨hu, hus⟩ := List.forall_mem_cons.1 hus
      rw [eq_of_text_eq ht hu (String.toList_inj.1 htext), ih hts hus hrest]

theorem eq_of_format_eq (hts : ∀ t ∈ ts, t.HasLiteral) (hus : ∀ u ∈ us, u.HasLiteral)
    (h : format ts = format us) : ts = us := by
  have hempty : format [] = "" := rfl
  by_cases hne : ts = []
  · subst hne
    by_contra hne'
    exact format_ne_empty (Ne.symm hne') hus (h.symm.trans hempty)
  · have hne' : us ≠ [] := by
      rintro rfl
      exact format_ne_empty hne hts (h.trans hempty)
    have hsplit := splitOn_format hne hts
    rw [h, splitOn_format hne' hus] at hsplit
    exact eq_of_map_text_eq hts hus hsplit.symm

/-! ## Reading what is displayed -/

theorem scan_singleton {c : Char} {token : Token} (h : ofSymbol? c = some token) :
    scan [c] = .ok [token] := by
  rw [scan_symbol h, scan]
  rfl

theorem scan_text {token : Token} (h : token.IsWritten) : scan token.text.toList = .ok [token] := by
  cases token with
  | number literal =>
    rw [text, scan_literal h, String.ofList_toList]
  | operator op =>
    cases op with
    | sign s => exact absurd h id
    | binary op =>
      obtain ⟨c, hspelled, hc⟩ := exists_spelling op
      rw [text, hspelled, scan_singleton hc]
  | opening => exact scan_singleton rfl
  | closing => exact scan_singleton rfl

/-- A space is a clean cut, whatever stands on either side of it. -/
theorem scan_format (h : ∀ t ∈ ts, t.IsWritten) : scan (format ts).toList = .ok ts := by
  induction ts with
  | nil => rw [show (format []).toList = [] from rfl, scan]
  | cons t ts ih =>
    obtain ⟨ht, hts⟩ := List.forall_mem_cons.1 h
    by_cases hne : ts = []
    · subst hne
      rw [format_singleton, scan_text ht]
    · have hcut : CleanCut t.text.toList (' ' :: (format ts).toList) := by
        right
        rintro d ⟨⟩
        rfl
      have hlist : (format (t :: ts)).toList = t.text.toList ++ ' ' :: (format ts).toList := by
        simp [format_cons t hne]
      rw [hlist, scan_append hcut, scan_text ht, scan_blank (by decide), ih hts]
      rfl

end Token

open Token

/-! ## What a success displays -/

/-- A tree that has a value has literals at its leaves. -/
theorem Expression.hasLiteral_of_mem_rpn {p : Precision} {e : Expression} {v : Decimal}
    (h : e.eval p = .ok v) : ∀ t ∈ e.rpn, t.HasLiteral := by
  induction e generalizing v with
  | number literal =>
    rintro t ht
    obtain rfl := List.mem_singleton.1 ht
    exact Decimal.isLiteral_of_parse h
  | signed s e ih =>
    obtain ⟨w, hw, -⟩ := eval_signed_ok.1 h
    intro t ht
    rcases List.mem_append.1 ht with ht | ht
    · exact ih hw t ht
    · obtain rfl := List.mem_singleton.1 ht
      trivial
  | binary op l r ihl ihr =>
    obtain ⟨a, b, ha, hb, -⟩ := eval_binary_ok.1 h
    intro t ht
    simp only [rpn, List.mem_append, List.mem_singleton] at ht
    rcases ht with (ht | ht) | rfl
    · exact ihl ha t ht
    · exact ihr hb t ht
    · trivial

section

variable {p : Precision} {text : String} {s : Steps}

/-- The displayed tokens evaluate to the same result with the same steps. -/
theorem evaluateSteps_tokens (h : evaluateSteps p text = .ok s) :
    evaluateSteps p s.tokens = .ok s := by
  obtain ⟨tokens, e, htokens, hrpn, -, hst, -⟩ := exists_expression_of_evaluateSteps h
  have hread : tokenize s.tokens = .ok tokens := by
    rw [hst]
    exact scan_format (isWritten_of_mem_scan htokens)
  rw [evaluateSteps_of_toRpn hread hrpn, ← evaluateSteps_of_toRpn htokens hrpn, h]

theorem steps_ne_empty (h : evaluateSteps p text = .ok s) : s.tokens ≠ "" ∧ s.rpn ≠ "" := by
  obtain ⟨tokens, e, htokens, hrpn, he, hst, hsr⟩ := exists_expression_of_evaluateSteps h
  rw [hst, hsr]
  exact ⟨format_ne_empty (ne_nil_of_toRpn hrpn)
      fun t ht => (isWritten_of_mem_scan htokens t ht).hasLiteral,
    format_ne_empty e.rpn_ne_nil (Expression.hasLiteral_of_mem_rpn he)⟩

end

/-- A list of tokens that a text can spell is read back from its display, and lists of well-formed
tokens with the same display are equal, signs included. So the displayed tokens of an evaluation
evaluate to the same result with the same steps. -/
theorem displayed_steps_read_back :
    (∀ tokens : List Token, (∀ t ∈ tokens, t.IsWritten) →
      tokenize (Token.format tokens) = .ok tokens) ∧
    (∀ ts us : List Token, (∀ t ∈ ts, t.HasLiteral) → (∀ u ∈ us, u.HasLiteral) →
      Token.format ts = Token.format us → ts = us) ∧
    ∀ (p : Precision) (text : String) (s : Steps), evaluateSteps p text = .ok s →
      evaluateSteps p s.tokens = .ok s := by
  exact ⟨fun tokens h => scan_format h, fun ts us hts hus h => eq_of_format_eq hts hus h,
    fun p text s h => evaluateSteps_tokens h⟩

/-- Two numbers side by side stay two numbers; a sign is displayed otherwise than a binary operator;
signs and points are kept by the displayed steps. -/
theorem displayed_signs_and_points :
    tokenize (Token.format [.number ".5", .number "5.", .operator (.binary .sub), .closing]) =
        .ok [.number ".5", .number "5.", .operator (.binary .sub), .closing] ∧
      Token.format [.number "3", .operator (.sign .minus)] ≠
        Token.format [.number "3", .operator (.binary .sub)] ∧
      evaluateSteps .standard "- .5 * ( 5. - 3 )" =
        .ok ⟨⟨-1, 0⟩, "- .5 * ( 5. - 3 )", ".5 u- 5. 3 - *"⟩ := by
  obtain ⟨hread, hinjective, hsteps⟩ := displayed_steps_read_back
  refine ⟨hread _ (by decide), ?_, ?_⟩
  · intro h
    have heq := hinjective _ _ (by decide) (by decide) h
    cases heq
  · have h : evaluateSteps .standard "-.5*(5.-3)" =
        .ok ⟨⟨-1, 0⟩, "- .5 * ( 5. - 3 )", ".5 u- 5. 3 - *"⟩ := by decide +kernel
    exact hsteps .standard _ _ h

end ExactCalculator
