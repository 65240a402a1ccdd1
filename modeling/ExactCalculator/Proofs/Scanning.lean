import ExactCalculator.Token.Scan
import Mathlib.Data.List.TakeWhile

/-!
# Reading a text in parts

A text may be cut anywhere but inside a run of numerals (`CleanCut`), and its parts be read one
after the other (`scan_append`). Blanks at either end therefore change nothing (`scan_trim`), and
what is read are literals, binary operators and parentheses (`isWritten_of_mem_scan`).
-/

namespace ExactCalculator

theorem map_eq_ok_iff {ε α β : Type} {f : α → β} {x : Except ε α} {b : β} :
    x.map f = .ok b ↔ ∃ a, x = .ok a ∧ f a = b := by
  cases x <;> simp [Except.map]

/-- Trimming takes blanks off the end, and nothing else. -/
theorem Text.exists_trimEnd_append (cs : List Char) :
    ∃ blanks, cs = trimEnd cs ++ blanks ∧ ∀ c ∈ blanks, isBlank c = true := by
  refine ⟨(cs.reverse.takeWhile isBlank).reverse, ?_, ?_⟩
  · rw [trimEnd, ← List.reverse_append, List.takeWhile_append_dropWhile, List.reverse_reverse]
  · intro c hc
    have hall := List.all_takeWhile (p := isBlank) (l := cs.reverse)
    exact List.all_eq_true.1 hall c (List.mem_reverse.1 hc)

/-- A text is trimmed to nothing when it is blank. -/
theorem Text.trim_eq_nil_iff {cs : List Char} :
    Text.trim cs = [] ↔ ∀ c ∈ cs, Text.isBlank c = true := by
  rw [Text.trim, Text.trimEnd, List.reverse_eq_nil_iff, List.dropWhile_eq_nil_iff]
  simp only [List.mem_reverse, Text.trimStart]
  constructor
  · intro h c hc
    rw [← List.takeWhile_append_dropWhile (p := Text.isBlank) (l := cs), List.mem_append] at hc
    exact hc.elim List.mem_takeWhile_imp (h c)
  · exact fun h c hc => h c ((List.dropWhile_sublist _).mem hc)

namespace Token

/-! ## Classes of characters -/

theorem not_isNumeral_of_isBlank {c : Char} (h : Text.isBlank c = true) : isNumeral c = false := by
  rw [Bool.eq_false_iff]
  intro hn
  have hdigit : (48 ≤ c.toNat ∧ c.toNat ≤ 57) ∨ c.toNat = 46 := by
    simp only [isNumeral, Char.isDigit, Bool.or_eq_true, Bool.and_eq_true, decide_eq_true_eq,
      beq_iff_eq, UInt32.le_iff_toNat_le] at hn
    rcases hn with hn | rfl
    · exact Or.inl hn
    · exact Or.inr rfl
  simp only [Text.isBlank, Text.blankRanges, List.any_cons, List.any_nil, Bool.or_eq_true,
    Bool.and_eq_true, decide_eq_true_eq, Bool.or_false] at h
  omega

theorem class_of_ofSymbol? {c : Char} {token : Token} (h : ofSymbol? c = some token) :
    Text.isBlank c = false ∧ isNumeral c = false := by
  unfold ofSymbol? at h
  split at h
  case h_7 => cases h
  all_goals exact ⟨by decide, by decide⟩

/-- A binary operator is spelled by one character. -/
theorem exists_spelling (op : BinaryOperator) :
    ∃ c, (Operator.binary op).symbol.toList = [c] ∧ ofSymbol? c = some (.operator (.binary op)) := by
  cases op with
  | add => exact ⟨'+', rfl, rfl⟩
  | sub => exact ⟨'-', rfl, rfl⟩
  | mul => exact ⟨'*', rfl, rfl⟩
  | div => exact ⟨'/', rfl, rfl⟩

theorem ofSymbol?_of_isNumeral {c : Char} (h : isNumeral c = true) : ofSymbol? c = none := by
  cases ht : ofSymbol? c with
  | none => rfl
  | some token =>
    rw [(class_of_ofSymbol? ht).2] at h
    cases h

/-- No numeral on one of the two sides of a cut. -/
def CleanCut (cs ds : List Char) : Prop :=
  (∀ c ∈ cs.getLast?, isNumeral c = false) ∨ (∀ d ∈ ds.head?, isNumeral d = false)

theorem CleanCut.tail {c : Char} {cs ds : List Char} (h : CleanCut (c :: cs) ds) :
    CleanCut cs ds := by
  obtain h | h := h
  · cases cs with
    | nil => exact Or.inl (by simp)
    | cons d cs => exact Or.inl (by rwa [List.getLast?_cons_cons] at h)
  · exact Or.inr h

/-- A clean cut after a numeral leaves its run whole. -/
theorem CleanCut.run {c : Char} {cs ds : List Char} (hc : isNumeral c = true)
    (h : CleanCut (c :: cs) ds) :
    (cs ++ ds).takeWhile isNumeral = cs.takeWhile isNumeral ∧
      (cs ++ ds).dropWhile isNumeral = cs.dropWhile isNumeral ++ ds ∧
      CleanCut (cs.dropWhile isNumeral) ds := by
  induction cs generalizing c with
  | nil =>
    have hhead : ∀ d ∈ ds.head?, isNumeral d = false := by
      apply h.resolve_left
      intro hl
      rw [hl c rfl] at hc
      cases hc
    cases ds with
    | nil => exact ⟨rfl, rfl, Or.inl (by simp)⟩
    | cons d ds =>
      have hd := hhead d rfl
      simp [hd, CleanCut]
  | cons d cs ih =>
    by_cases hd : isNumeral d = true
    · simpa [hd] using ih hd h.tail
    · simpa [hd] using h.tail

/-! ## Reading in parts -/

theorem scan_append {cs ds : List Char} (h : CleanCut cs ds) :
    scan (cs ++ ds) = (do
      let before ← scan cs
      let after ← scan ds
      return before ++ after) := by
  fun_induction scan cs with
  | case1 => cases hd : scan ds <;> simp [hd, bind, Except.bind, pure, Except.pure]
  | case2 c cs hb ih =>
    rw [List.cons_append, scan, if_pos hb]
    exact ih h.tail
  | case3 c cs hb token ht ih =>
    rw [List.cons_append, scan, if_neg hb, ht]
    simp only
    rw [ih h.tail]
    cases scan cs <;> cases scan ds <;> rfl
  | case4 c cs hb ht hn run hl ih =>
    obtain ⟨htake, hdrop, hcut⟩ := h.run hn
    rw [List.cons_append, scan, if_neg hb, ht]
    simp only [hn, ↓reduceIte, htake, hdrop]
    rw [if_pos hl, ih hcut]
    cases scan (cs.dropWhile isNumeral) <;> cases scan ds <;> rfl
  | case5 c cs hb ht hn run hl =>
    obtain ⟨htake, -, -⟩ := h.run hn
    rw [List.cons_append, scan, if_neg hb, ht]
    simp only [hn, ↓reduceIte, htake]
    rw [if_neg hl]
    rfl
  | case6 c cs hb ht hn =>
    rw [List.cons_append, scan, if_neg hb, ht]
    simp only [hn, Bool.false_eq_true, ↓reduceIte]
    rfl

theorem scan_blank {c : Char} (h : Text.isBlank c = true) (cs : List Char) :
    scan (c :: cs) = scan cs := by
  rw [scan, if_pos h]

theorem scan_symbol {c : Char} {token : Token} (h : ofSymbol? c = some token) (cs : List Char) :
    scan (c :: cs) = (scan cs).map (token :: ·) := by
  rw [scan, if_neg (Bool.eq_false_iff.1 (class_of_ofSymbol? h).1), h]

/-- A run of numerals that no other one follows is read as a whole. -/
theorem scan_run {run cs : List Char} (hne : run ≠ []) (hrun : ∀ c ∈ run, isNumeral c = true)
    (hcs : ∀ c ∈ cs.head?, isNumeral c = false) :
    scan (run ++ cs) =
      if isLiteral run then (scan cs).map (number (String.ofList run) :: ·)
      else .error (.malformedNumber (String.ofList run)) := by
  cases run with
  | nil => exact absurd rfl hne
  | cons c run =>
    have hc := hrun c (by simp)
    have hblank : ¬ Text.isBlank c = true := by
      intro hb
      rw [not_isNumeral_of_isBlank hb] at hc
      cases hc
    have hall : ∀ d ∈ run, isNumeral d = true := fun d hd => hrun d (by simp [hd])
    have htake : cs.takeWhile isNumeral = [] := by
      cases cs with
      | nil => rfl
      | cons d cs => exact List.takeWhile_cons_of_neg (by simp [hcs d rfl])
    have hdrop : cs.dropWhile isNumeral = cs := by
      cases cs with
      | nil => rfl
      | cons d cs => exact List.dropWhile_cons_of_neg (by simp [hcs d rfl])
    rw [List.cons_append, scan, if_neg hblank, ofSymbol?_of_isNumeral hc]
    simp only [hc, ↓reduceIte, List.takeWhile_append_of_pos hall,
      List.dropWhile_append_of_pos hall, htake, hdrop, List.append_nil]

theorem scan_append_symbol {c : Char} {token : Token} (h : ofSymbol? c = some token)
    {cs : List Char} {ts : List Token} (hcs : scan cs = .ok ts) (ds : List Char) :
    scan (cs ++ c :: ds) = (scan ds).map fun us => ts ++ token :: us := by
  have hcut : CleanCut cs (c :: ds) := by
    right
    intro d hd
    obtain rfl := Option.some.inj hd
    exact (class_of_ofSymbol? h).2
  rw [scan_append hcut, hcs, scan_symbol h]
  cases scan ds <;> rfl

/-! ## Blanks at the ends -/

theorem scan_blanks {cs : List Char} (h : ∀ c ∈ cs, Text.isBlank c = true) : scan cs = .ok [] := by
  induction cs with
  | nil => rw [scan]
  | cons c cs ih =>
    rw [scan_blank (h c (by simp))]
    exact ih fun d hd => h d (by simp [hd])

theorem scan_trimStart (cs : List Char) : scan (Text.trimStart cs) = scan cs := by
  induction cs with
  | nil => rfl
  | cons c cs ih =>
    by_cases hc : Text.isBlank c = true
    · rw [Text.trimStart, List.dropWhile_cons_of_pos hc, scan_blank hc]
      exact ih
    · rw [Text.trimStart, List.dropWhile_cons_of_neg hc]

theorem scan_trimEnd (cs : List Char) : scan (Text.trimEnd cs) = scan cs := by
  obtain ⟨blanks, hcs, hblank⟩ := Text.exists_trimEnd_append cs
  have hcut : CleanCut (Text.trimEnd cs) blanks :=
    Or.inr fun d hd => not_isNumeral_of_isBlank (hblank d (List.mem_of_mem_head? hd))
  have happ := scan_append hcut
  rw [← hcs, scan_blanks hblank] at happ
  rw [happ]
  cases scan (Text.trimEnd cs) <;> simp [bind, Except.bind, pure, Except.pure]

theorem scan_trim (cs : List Char) : scan (Text.trim cs) = scan cs := by
  rw [Text.trim, scan_trimEnd, scan_trimStart]

/-! ## What can be read -/

/-- A token that a text can spell: well-formed literals, binary operators, parentheses. -/
def IsWritten : Token → Prop
  | number literal => isLiteral literal.toList = true
  | operator (.sign _) => False
  | operator (.binary _) | opening | closing => True

instance : DecidablePred IsWritten
  | number _ => inferInstanceAs (Decidable (_ = true))
  | operator (.sign _) => inferInstanceAs (Decidable False)
  | operator (.binary _) | opening | closing => inferInstanceAs (Decidable True)

theorem isWritten_of_ofSymbol? {c : Char} {token : Token} (h : ofSymbol? c = some token) :
    token.IsWritten := by
  unfold ofSymbol? at h
  split at h <;> cases h <;> trivial

theorem isWritten_of_mem_scan {cs : List Char} {tokens : List Token} (h : scan cs = .ok tokens) :
    ∀ token ∈ tokens, token.IsWritten := by
  fun_induction scan cs generalizing tokens with
  | case1 =>
    cases h
    simp
  | case2 c cs hb ih => exact ih h
  | case3 c cs hb token ht ih =>
    obtain ⟨rest, hs, rfl⟩ := map_eq_ok_iff.1 h
    intro t hmem
    rcases List.mem_cons.1 hmem with rfl | hmem
    · exact isWritten_of_ofSymbol? ht
    · exact ih hs t hmem
  | case4 c cs hb ht hn run hl =>
    rename_i ih
    obtain ⟨rest, hs, rfl⟩ := map_eq_ok_iff.1 h
    intro t hmem
    rcases List.mem_cons.1 hmem with rfl | hmem
    · rw [IsWritten, String.toList_ofList]
      exact hl
    · exact ih hs t hmem
  | case5 c cs hb ht hn => cases h
  | case6 c cs hb ht hn => cases h

end Token

end ExactCalculator
