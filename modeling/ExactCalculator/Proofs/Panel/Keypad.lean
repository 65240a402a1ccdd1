import ExactCalculator.Proofs.Evaluation
import ExactCalculator.Proofs.Panel.History
import ExactCalculator.Proofs.Pieces
import Mathlib.Data.List.DropRight

/-!
# The keypad is a stack of keys

A key that writes goes on a stack, and a deletion takes the last one off (`strike`). The entry holds
the labels of the keys on the stack, in order, with spaces between some of them (`Keyed`). After a
number a space comes only in front of a symbol (`WellSpaced`), so without the spaces no two numbers
join and the same tokens are read (`scan_filter_spaces`). Main statement: `entry_of_keystrokes`.
-/

namespace ExactCalculator

/-! ## Spaces between symbols -/

namespace Token

/-- A space at the start has a symbol behind it. -/
def SymbolNext (cs : List Char) : Prop :=
  ∀ ds, cs = ' ' :: ds → ∃ y ∈ ds.head?, y ≠ ' ' ∧ isNumeral y = false

/-- Wherever a space follows a number, a symbol follows the space. -/
def WellSpaced : List Char → Prop
  | [] => True
  | c :: cs => (isNumeral c = true → SymbolNext cs) ∧ WellSpaced cs

variable {cs ds : List Char}

theorem symbolNext_of_head?_ne (h : ∀ c ∈ cs.head?, c ≠ ' ') : SymbolNext cs := by
  rintro ds rfl
  exact absurd rfl (h ' ' rfl)

theorem SymbolNext.append (h : SymbolNext cs) (hne : cs ≠ []) : SymbolNext (cs ++ ds) := by
  intro es hes
  cases cs with
  | nil => exact absurd rfl hne
  | cons c cs =>
    obtain ⟨rfl, rfl⟩ := List.cons.inj hes
    obtain ⟨y, hy, hsymbol⟩ := h cs rfl
    exact ⟨y, List.mem_head?_append_of_mem_head? hy, hsymbol⟩

theorem SymbolNext.of_append (h : SymbolNext (cs ++ ds)) (hlast : cs.getLast? ≠ some ' ') :
    SymbolNext cs := by
  rintro es rfl
  obtain ⟨y, hy, hsymbol⟩ := h (es ++ ds) rfl
  cases es with
  | nil => exact absurd rfl hlast
  | cons e es => exact ⟨y, hy, hsymbol⟩

theorem wellSpaced_singleton (c : Char) : WellSpaced [c] :=
  ⟨fun _ => symbolNext_of_head?_ne (by simp), trivial⟩

/-- A symbol may stand between spaces. -/
theorem wellSpaced_symbol {c : Char} (hc : isNumeral c = false) : WellSpaced [c, ' '] := by
  refine ⟨fun hc' => ?_, wellSpaced_singleton ' '⟩
  rw [hc] at hc'
  cases hc'

theorem WellSpaced.append (hcs : WellSpaced cs) (hds : WellSpaced ds)
    (hjoin : ∀ x ∈ cs.getLast?, isNumeral x = true → SymbolNext ds) : WellSpaced (cs ++ ds) := by
  induction cs with
  | nil => exact hds
  | cons c cs ih =>
    refine ⟨fun hc => ?_, ih hcs.2 fun x hx => hjoin x (List.mem_getLast?_cons hx)⟩
    by_cases hne : cs = []
    · subst hne
      exact hjoin c rfl hc
    · exact (hcs.1 hc).append hne

theorem WellSpaced.of_append_right (h : WellSpaced (cs ++ ds)) : WellSpaced ds := by
  induction cs with
  | nil => exact h
  | cons c cs ih => exact ih h.2

theorem WellSpaced.of_append_left (h : WellSpaced (cs ++ ds)) (hlast : cs.getLast? ≠ some ' ') :
    WellSpaced cs := by
  induction cs with
  | nil => trivial
  | cons c cs ih =>
    have hlast' : cs.getLast? ≠ some ' ' := fun hs => hlast (List.mem_getLast?_cons hs)
    exact ⟨fun hc => (h.1 hc).of_append hlast', ih h.2 hlast'⟩

theorem scan_cons_congr {c : Char} (hc : isNumeral c = false) (h : scan cs = scan ds) :
    scan (c :: cs) = scan (c :: ds) := by
  rw [scan.eq_2, scan.eq_2, h, hc]
  rfl

theorem SymbolNext.head?_filter (h : SymbolNext cs) (hhead : ∀ c ∈ cs.head?, isNumeral c = false) :
    ∀ c ∈ (cs.filter (· != ' ')).head?, isNumeral c = false := by
  cases cs with
  | nil => simp
  | cons d cs =>
    by_cases hspace : d = ' '
    · subst hspace
      obtain ⟨y, hy, hne, hsymbol⟩ := h cs rfl
      obtain ⟨es, rfl⟩ := List.head?_eq_some_iff.1 hy
      simpa [hne] using hsymbol
    · simpa [hspace] using hhead d rfl

/-- Spaces may be taken out where no two numbers would join. -/
theorem scan_filter_spaces (h : WellSpaced cs) : scan (cs.filter (· != ' ')) = scan cs := by
  have hsplits := splits_pieces cs
  generalize pieces cs = ps at hsplits
  induction hsplits with
  | nil => rfl
  | @other c cs ps hc _ ih =>
    by_cases hspace : c = ' '
    · subst hspace
      rw [List.filter_cons_of_neg (by simp), ih h.2, scan_blank (by decide)]
    · rw [List.filter_cons_of_pos (by simpa using hspace)]
      exact scan_cons_congr hc (ih h.2)
  | @run run cs ps hne hrun hhead _ ih =>
    have hkeep : run.filter (· != ' ') = run := by
      rw [List.filter_eq_self]
      intro c hc
      rw [bne_iff_ne]
      rintro rfl
      have hnumeral := hrun ' ' hc
      cases hnumeral
    have hnext : SymbolNext cs := by
      obtain ⟨ds, x, rfl⟩ := List.eq_nil_or_concat' run |>.resolve_left hne
      rw [List.append_assoc] at h
      exact h.of_append_right.1 (hrun x (by simp))
    rw [List.filter_append, hkeep, scan_run hne hrun (hnext.head?_filter hhead),
      scan_run hne hrun hhead, ih h.of_append_right]

end Token

namespace Text

variable {cs : List Char}

theorem trimEnd_eq_rdropWhile (cs : List Char) : trimEnd cs = cs.rdropWhile isBlank := rfl

theorem getLast?_trimEnd_ne_space (cs : List Char) : (trimEnd cs).getLast? ≠ some ' ' := by
  intro h
  obtain ⟨ds, hds⟩ := List.getLast?_eq_some_iff.1 h
  have htrim := List.rdropWhile_idempotent isBlank cs
  rw [← trimEnd_eq_rdropWhile cs, hds, List.rdropWhile_concat_pos _ _ _ (by decide)] at htrim
  have hle := (List.rdropWhile_prefix isBlank ds).length_le
  rw [htrim, List.length_append, List.length_singleton] at hle
  omega

theorem ne_space_of_not_isBlank {c : Char} (h : isBlank c = false) : c ≠ ' ' := by
  rintro rfl
  cases h

/-- If only spaces can be trimmed, the other characters stay. -/
theorem filter_trimEnd (h : ∀ c ∈ cs.filter (· != ' '), isBlank c = false) :
    (trimEnd cs).filter (· != ' ') = cs.filter (· != ' ') := by
  obtain ⟨blanks, hcs, hblank⟩ := exists_trimEnd_append cs
  have hspaces : blanks.filter (· != ' ') = [] := by
    rw [List.filter_eq_nil_iff]
    intro c hc hne
    have hmem : c ∈ cs.filter (· != ' ') := by
      rw [hcs]
      exact List.mem_filter.2 ⟨List.mem_append_right _ hc, hne⟩
    have hnot := h c hmem
    rw [hblank c hc] at hnot
    cases hnot
  calc (trimEnd cs).filter (· != ' ')
      = (trimEnd cs ++ blanks).filter (· != ' ') := by
        rw [List.filter_append, hspaces, List.append_nil]
    _ = cs.filter (· != ' ') := by rw [← hcs]

end Text

/-! ## Keys -/

/-- The keys that write their label into the entry. -/
def Key.Writes : Key → Prop
  | digit _ | point | opening | closing | operator _ => True
  | delete | equals | clear | clearResults | clearAll => False

/-- What the keypad, the enter key and the escape key can do. -/
def Action.IsKeystroke : Action → Prop
  | press _ | enter | escape => True
  | setEntry _ | setPrecision _ | typePrecision _ | apply _ => False

instance : DecidablePred Action.IsKeystroke
  | .press _ | .enter | .escape => inferInstanceAs (Decidable True)
  | .setEntry _ | .setPrecision _ | .typePrecision _ | .apply _ =>
    inferInstanceAs (Decidable False)

theorem Key.label_digit : ∀ d : Fin 10, (digit d).label.toList = [Nat.digitChar d] ∧
    Text.isBlank (Nat.digitChar d) = false := by
  decide

theorem Key.exists_label {key : Key} (h : key.Writes) :
    ∃ c, key.label.toList = [c] ∧ Text.isBlank c = false := by
  cases key with
  | digit d => exact ⟨_, label_digit d⟩
  | operator op =>
    obtain ⟨c, hspelled, hc⟩ := Token.exists_spelling op
    exact ⟨c, hspelled, (Token.class_of_ofSymbol? hc).1⟩
  | point | opening | closing => exact ⟨_, rfl, rfl⟩
  | _ => exact absurd h id

/-- The stack of keys after an action. The latest key comes last. -/
def strike (keys : List Key) : Action → List Key
  | .press .delete => keys.dropLast
  | .press .clear | .press .clearAll | .escape => []
  | .press .equals | .press .clearResults => keys
  | .press key => keys ++ [key]
  | _ => keys

def keyText (keys : List Key) : String := String.join (keys.map Key.label)

/-! ## The entry of a keypad -/

/-- The entry that these keys are read from: their labels, and spaces. -/
structure Keyed (keys : List Key) (cs : List Char) : Prop where
  writes : ∀ key ∈ keys, key.Writes
  filter_eq : cs.filter (· != ' ') = (keyText keys).toList
  spaced : Token.WellSpaced cs

theorem toList_keyText_append (keys : List Key) (key : Key) :
    (keyText (keys ++ [key])).toList = (keyText keys).toList ++ key.label.toList := by
  simp [keyText, String.toList_join]

theorem not_isBlank_of_mem_keyText {keys : List Key} (h : ∀ key ∈ keys, key.Writes) :
    ∀ c ∈ (keyText keys).toList, Text.isBlank c = false := by
  intro c hc
  rw [keyText, String.toList_join, List.flatMap_map, List.mem_flatMap] at hc
  obtain ⟨key, hkey, hc⟩ := hc
  obtain ⟨d, hlabel, hd⟩ := Key.exists_label (h key hkey)
  rw [hlabel, List.mem_singleton] at hc
  rwa [hc]

theorem keyed_nil : Keyed [] [] := ⟨by simp, rfl, trivial⟩

section

variable {keys : List Key} {cs : List Char}

/-- The entry may be cut after a key, whatever is behind it. -/
theorem keyed_trimEnd {ds : List Char} (hwrites : ∀ key ∈ keys, key.Writes)
    (hfilter : cs.filter (· != ' ') = (keyText keys).toList)
    (hspaced : Token.WellSpaced (cs ++ ds)) : Keyed keys (Text.trimEnd cs) := by
  have hnot : ∀ c ∈ cs.filter (· != ' '), Text.isBlank c = false := by
    rw [hfilter]
    exact not_isBlank_of_mem_keyText hwrites
  obtain ⟨blanks, hcs, -⟩ := Text.exists_trimEnd_append cs
  rw [hcs, List.append_assoc] at hspaced
  exact ⟨hwrites, (Text.filter_trimEnd hnot).trans hfilter,
    hspaced.of_append_left (Text.getLast?_trimEnd_ne_space cs)⟩

theorem Keyed.trimEnd (h : Keyed keys cs) : Keyed keys (Text.trimEnd cs) := by
  have hspaced := h.spaced
  rw [← List.append_nil cs] at hspaced
  exact keyed_trimEnd h.writes h.filter_eq hspaced

theorem Keyed.glue {key : Key} (h : Keyed keys cs) (hkey : key.Writes) :
    Keyed (keys ++ [key]) (cs ++ key.label.toList) := by
  obtain ⟨c, hlabel, hblank⟩ := Key.exists_label hkey
  have hne := Text.ne_space_of_not_isBlank hblank
  refine ⟨?_, ?_, ?_⟩
  · simpa [or_imp, forall_and] using ⟨h.writes, hkey⟩
  · rw [toList_keyText_append, List.filter_append, h.filter_eq, hlabel]
    simp [hne]
  · rw [hlabel]
    exact h.spaced.append (Token.wellSpaced_singleton c) fun _ _ _ =>
      Token.symbolNext_of_head?_ne (by simpa using hne)

/-- An operator is written after a space, or at the start, and with a space after it. -/
theorem Keyed.operator {before : List Char} (h : Keyed keys cs)
    (hbefore : before = [] ∧ cs = [] ∨ before = cs ++ [' ']) (op : BinaryOperator) :
    Keyed (keys ++ [.operator op]) (before ++ ((Operator.binary op).symbol.toList ++ [' '])) := by
  obtain ⟨c, hspelled, hc⟩ := Token.exists_spelling op
  obtain ⟨hblank, hsymbol⟩ := Token.class_of_ofSymbol? hc
  have hne := Text.ne_space_of_not_isBlank hblank
  have hlabel : (Key.operator op).label.toList = [c] := hspelled
  refine ⟨?_, ?_, ?_⟩
  · simpa [or_imp, forall_and] using ⟨h.writes, trivial⟩
  · rw [toList_keyText_append, ← h.filter_eq, hlabel, hspelled]
    rcases hbefore with ⟨rfl, rfl⟩ | rfl <;> simp [hne]
  · rw [hspelled]
    rcases hbefore with ⟨rfl, rfl⟩ | rfl
    · exact Token.wellSpaced_symbol hsymbol
    · rw [List.append_assoc]
      refine h.spaced.append ⟨fun hspace => ?_, Token.wellSpaced_symbol hsymbol⟩ fun _ _ _ => ?_
      · cases hspace
      · rintro ds hds
        obtain ⟨-, rfl⟩ := List.cons.inj hds
        exact ⟨c, rfl, hne, hsymbol⟩

theorem keyText_eq_empty {keys : List Key} (h : ∀ key ∈ keys, key.Writes)
    (hempty : (keyText keys).toList = []) : keys = [] := by
  rcases List.eq_nil_or_concat' keys with rfl | ⟨ks, key, rfl⟩
  · rfl
  · obtain ⟨c, hlabel, -⟩ := Key.exists_label (h key (by simp))
    simp [toList_keyText_append, hlabel] at hempty

/-- The last character that is no blank is the label of the last key. -/
theorem Keyed.delete (h : Keyed keys cs) :
    Keyed keys.dropLast (Text.trimEnd (Text.trimEnd cs).dropLast) := by
  have htrim := h.trimEnd
  rcases List.eq_nil_or_concat' (Text.trimEnd cs) with hnil | ⟨ds, c, hds⟩
  · rw [hnil] at htrim ⊢
    obtain rfl := keyText_eq_empty htrim.writes htrim.filter_eq.symm
    exact keyed_nil
  · have hlast := Text.getLast?_trimEnd_ne_space cs
    rw [hds] at htrim hlast ⊢
    have hne : c ≠ ' ' := by simpa using hlast
    obtain ⟨hwrites, hfilter, hspaced⟩ := htrim
    rw [List.filter_append, List.filter_cons_of_pos (by simpa using hne), List.filter_nil] at hfilter
    rcases List.eq_nil_or_concat' keys with rfl | ⟨ks, key, rfl⟩
    · simp [keyText] at hfilter
    · obtain ⟨d, hlabel, -⟩ := Key.exists_label (hwrites key (by simp))
      rw [toList_keyText_append, hlabel] at hfilter
      obtain ⟨hfilter, -⟩ := List.append_inj' hfilter rfl
      rw [List.dropLast_concat, List.dropLast_concat]
      exact keyed_trimEnd (fun k hk => hwrites k (by simp [hk])) hfilter hspaced

end

/-! ## Runs of a keypad -/

namespace Panel

theorem entry_display (p : Panel) (verdict : Except EvalError Steps) :
    (p.display verdict).entry = p.entry := by
  cases verdict <;> rfl

theorem toList_entry_appendOperator (p : Panel) (op : BinaryOperator) :
    ∃ before, (before = [] ∧ Text.trimEnd p.entry.toList = [] ∨
        before = Text.trimEnd p.entry.toList ++ [' ']) ∧
      (p.appendOperator op).entry.toList =
        before ++ ((Operator.binary op).symbol.toList ++ [' ']) := by
  by_cases h : Text.trimEnd p.entry.toList = []
  · refine ⟨[], Or.inl ⟨rfl, h⟩, ?_⟩
    simp [appendOperator, Text.trimmedEnd, h]
  · refine ⟨Text.trimEnd p.entry.toList ++ [' '], Or.inr rfl, ?_⟩
    simp [appendOperator, Text.trimmedEnd, h]

section

variable {keys : List Key} {p : Panel}

theorem keyed_append {key : Key} (h : Keyed keys p.entry.toList) (hkey : key.Writes) :
    Keyed (keys ++ [key]) (p.append key.label).entry.toList := by
  rw [append, String.toList_append]
  exact h.glue hkey

theorem keyed_appendOperator (h : Keyed keys p.entry.toList) (op : BinaryOperator) :
    Keyed (keys ++ [.operator op]) (p.appendOperator op).entry.toList := by
  obtain ⟨before, hbefore, hentry⟩ := toList_entry_appendOperator p op
  rw [hentry]
  exact h.trimEnd.operator hbefore op

theorem keyed_deleteLast (h : Keyed keys p.entry.toList) :
    Keyed keys.dropLast p.deleteLast.entry.toList := by
  rw [deleteLast, String.toList_ofList]
  exact h.delete

theorem keyed_showEvaluation (h : Keyed keys p.entry.toList) (text : String) :
    Keyed keys (p.showEvaluation text).entry.toList := by
  rwa [showEvaluation, entry_display]

theorem keyed_act {a : Action} (h : Keyed keys p.entry.toList) (ha : a.IsKeystroke) :
    Keyed (strike keys a) (p.act a).entry.toList := by
  cases a with
  | press key =>
    cases key with
    | digit d => exact keyed_append h trivial
    | point => exact keyed_append h trivial
    | opening => exact keyed_append h trivial
    | closing => exact keyed_append h trivial
    | operator op => exact keyed_appendOperator h op
    | delete => exact keyed_deleteLast h
    | equals => exact keyed_showEvaluation h p.entry
    | clear => exact keyed_nil
    | clearResults => exact h
    | clearAll => exact keyed_nil
  | enter => exact keyed_showEvaluation h p.entry
  | escape => exact keyed_nil
  | _ => exact absurd ha id

theorem keyed_run {actions : List Action} (h : Keyed keys p.entry.toList)
    (hactions : ∀ a ∈ actions, a.IsKeystroke) :
    Keyed (actions.foldl strike keys) (p.run actions).entry.toList := by
  induction actions generalizing keys p with
  | nil => exact h
  | cons a actions ih =>
    obtain ⟨ha, hactions⟩ := List.forall_mem_cons.1 hactions
    exact ih (keyed_act h ha) hactions

end

/-! ## A key taken back -/

theorem trimEnd_dropLast {cs : List Char} {c : Char} (hc : Text.isBlank c = false) :
    Text.trimEnd (Text.trimEnd (cs ++ [c])).dropLast = Text.trimEnd cs := by
  rw [Text.trimEnd_eq_rdropWhile (cs ++ [c]), List.rdropWhile_concat_neg _ _ _ (by simp [hc]),
    List.dropLast_concat]

theorem entry_deleteLast_append (p : Panel) {key : Key} (h : key.Writes) :
    (p.append key.label).deleteLast.entry = Text.trimmedEnd p.entry := by
  obtain ⟨c, hlabel, hblank⟩ := Key.exists_label h
  rw [deleteLast, append, String.toList_append, hlabel, trimEnd_dropLast hblank, Text.trimmedEnd]

theorem entry_deleteLast_appendOperator (p : Panel) (op : BinaryOperator) :
    (p.appendOperator op).deleteLast.entry = Text.trimmedEnd p.entry := by
  obtain ⟨c, hspelled, hc⟩ := Token.exists_spelling op
  obtain ⟨before, hbefore, hentry⟩ := toList_entry_appendOperator p op
  have hspace : Text.trimEnd (before ++ [c] ++ [' ']) = Text.trimEnd (before ++ [c]) :=
    List.rdropWhile_concat_pos _ _ _ (by decide)
  have htrim : Text.trimEnd before = Text.trimEnd p.entry.toList := by
    rcases hbefore with ⟨rfl, hnil⟩ | rfl
    · exact hnil.symm
    · rw [Text.trimEnd_eq_rdropWhile (_ ++ [' ']), List.rdropWhile_concat_pos _ _ _ (by decide)]
      exact List.rdropWhile_idempotent Text.isBlank _
  rw [deleteLast, hentry, hspelled, ← List.append_assoc, hspace,
    trimEnd_dropLast (Token.class_of_ofSymbol? hc).1, htrim, Text.trimmedEnd]

theorem entry_delete_press (p : Panel) {key : Key} (h : key.Writes) :
    ((p.press key).press .delete).entry = Text.trimmedEnd p.entry := by
  cases key with
  | digit d => exact entry_deleteLast_append p h
  | point => exact entry_deleteLast_append p h
  | opening => exact entry_deleteLast_append p h
  | closing => exact entry_deleteLast_append p h
  | operator op => exact entry_deleteLast_appendOperator p op
  | _ => exact absurd h id

end Panel

open Panel

/-- After any run of keystrokes the entry without its spaces is the text of the keys on the stack,
and both are evaluated alike at every precision. In any state a writing key that is deleted at once
leaves the entry without the blanks at its end. -/
theorem entry_of_keystrokes :
    (∀ actions : List Action, (∀ a ∈ actions, a.IsKeystroke) →
      ∀ (i : ℕ) (p : Panel), (initial.history actions)[i]? = some p →
        String.ofList (p.entry.toList.filter (· != ' ')) =
          keyText ((actions.take i).foldl strike []) ∧
        ∀ q : Precision, evaluateSteps q p.entry =
          evaluateSteps q (keyText ((actions.take i).foldl strike []))) ∧
    ∀ (p : Panel) (key : Key), key.Writes →
      ((p.press key).press .delete).entry = Text.trimmedEnd p.entry := by
  refine ⟨?_, fun p key h => p.entry_delete_press h⟩
  intro actions hactions i p hp
  have hkeyed : Keyed ((actions.take i).foldl strike []) p.entry.toList := by
    rw [eq_run_of_getElem?_history hp]
    exact keyed_run keyed_nil fun a ha => hactions a (List.mem_of_mem_take ha)
  have htext : String.ofList (p.entry.toList.filter (· != ' ')) =
      keyText ((actions.take i).foldl strike []) := by
    rw [hkeyed.filter_eq, String.ofList_toList]
  refine ⟨htext, fun q => ?_⟩
  rw [evaluateSteps_eq, evaluateSteps_eq, Token.tokenize, Token.tokenize, ← hkeyed.filter_eq,
    Token.scan_filter_spaces hkeyed.spaced]

/-- Keystrokes that leave an operator with a space in front of it only. -/
def spacedRun : List Action :=
  [.press (.digit 1), .press (.operator .add), .press (.digit 2), .press .delete,
    .press (.operator .sub), .enter, .press .delete, .press (.digit 5), .press .clearResults]

/-- The entry differs from the text of its keys and is evaluated alike. -/
theorem entry_of_spacedRun :
    ∃ p, (initial.history spacedRun)[9]? = some p ∧ p.entry = "1 +5" ∧
      keyText (spacedRun.foldl strike []) = "1+5" ∧
      (∀ q, evaluateSteps q p.entry = evaluateSteps q "1+5") ∧
      ((p.press (.operator .mul)).press .delete).entry = "1 +5" := by
  have hreached : (initial.history spacedRun)[9]? = some ⟨"1 +5", "", "", "", "", .standard⟩ := by
    decide +kernel
  have htext : keyText (spacedRun.foldl strike []) = "1+5" := by decide +kernel
  obtain ⟨hkeys, hdelete⟩ := entry_of_keystrokes
  obtain ⟨-, hevaluate⟩ := hkeys spacedRun (by decide) 9 _ hreached
  refine ⟨_, hreached, rfl, htext, ?_, ?_⟩
  · intro q
    rw [← htext]
    exact hevaluate q
  · exact (hdelete _ (.operator .mul) trivial).trans (by decide +kernel)

end ExactCalculator
