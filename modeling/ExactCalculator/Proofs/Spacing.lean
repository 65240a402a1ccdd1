import ExactCalculator.Proofs.Evaluation
import Mathlib.Control.Monad.Basic
import Mathlib.Logic.Relation

/-!
# Spacing

Where no run of numerals is cut, reading a text is reading its parts one after the other
(`Token.tokenize_append`). So at such a cut, and at either end, blanks may be put in or taken out,
any of them and as many as one likes (`Respaced`): the tokens stay the same, and with them the
whole evaluation, since trimming takes off nothing but blanks. Main statement:
`spacing_irrelevant`.
-/

namespace ExactCalculator

namespace Token

/-- The first fault of the parts is the fault of the whole. -/
theorem tokenize_append {s t : String} (h : CleanCut s.toList t.toList) :
    tokenize (s ++ t) = (do
      let before ← tokenize s
      let after ← tokenize t
      return before ++ after) := by
  rw [tokenize, String.toList_append]
  exact scan_append h

theorem scan_blanks_append {blanks : List Char} (h : ∀ c ∈ blanks, Text.isBlank c = true)
    (cs : List Char) : scan (blanks ++ cs) = scan cs := by
  induction blanks with
  | nil => rfl
  | cons c blanks ih =>
    obtain ⟨hc, hblanks⟩ := List.forall_mem_cons.1 h
    rw [List.cons_append, scan_blank hc, ih hblanks]

/-- Blanks keep a cut clean. -/
theorem CleanCut.blanks_append {cs ds blanks : List Char} (h : CleanCut cs ds)
    (hblanks : ∀ c ∈ blanks, Text.isBlank c = true) : CleanCut cs (blanks ++ ds) := by
  cases blanks with
  | nil => exact h
  | cons c blanks =>
    right
    intro d hd
    obtain rfl : c = d := Option.some.inj hd
    exact not_isNumeral_of_isBlank (hblanks c (by simp))

theorem scan_insert_blanks {cs ds blanks : List Char} (h : CleanCut cs ds)
    (hblanks : ∀ c ∈ blanks, Text.isBlank c = true) :
    scan (cs ++ blanks ++ ds) = scan (cs ++ ds) := by
  rw [List.append_assoc, scan_append (h.blanks_append hblanks), scan_blanks_append hblanks,
    scan_append h]

end Token

open Token

/-! ## Texts that differ in spacing -/

/-- The second text is the first one with blanks put in at a clean cut, which may be an end. -/
def InsertsBlanks (s t : String) : Prop :=
  ∃ before blanks after : String, s = before ++ after ∧ t = before ++ blanks ++ after ∧
    (∀ c ∈ blanks.toList, Text.isBlank c = true) ∧ CleanCut before.toList after.toList

/-- One text becomes the other as blanks are put in and taken out at clean cuts. -/
def Respaced (s t : String) : Prop := Relation.EqvGen InsertsBlanks s t

theorem InsertsBlanks.tokenize_eq {s t : String} (h : InsertsBlanks s t) :
    tokenize t = tokenize s := by
  obtain ⟨before, blanks, after, rfl, rfl, hblanks, hcut⟩ := h
  simp only [tokenize, String.toList_append]
  exact scan_insert_blanks hcut hblanks

theorem Respaced.tokenize_eq {s t : String} (h : Respaced s t) : tokenize s = tokenize t := by
  induction h with
  | rel s t h => exact h.tokenize_eq.symm
  | refl s => rfl
  | symm s t _ ih => exact ih.symm
  | trans s t u _ _ ihst ihtu => exact ihst.trans ihtu

/-- Texts whose tokens are the same are evaluated alike, although one of them may be blank. -/
theorem evaluateSteps_congr {s t : String} (h : tokenize s = tokenize t) (p : Precision) :
    evaluateSteps p s = evaluateSteps p t := by
  rw [evaluateSteps_eq, evaluateSteps_eq, h]

/-- A text that is cut outside its numbers is read part by part, and fails with the first fault of
its parts. Blanks at such cuts change neither its tokens nor what its evaluation answers: the
result, the displayed steps or the error. -/
theorem spacing_irrelevant (s t : String) :
    (CleanCut s.toList t.toList → tokenize (s ++ t) = (do
      let before ← tokenize s
      let after ← tokenize t
      return before ++ after)) ∧
    (Respaced s t →
      tokenize s = tokenize t ∧ ∀ p, evaluateSteps p s = evaluateSteps p t) := by
  refine ⟨tokenize_append, ?_⟩
  intro h
  exact ⟨h.tokenize_eq, evaluateSteps_congr h.tokenize_eq⟩

/-- Blanks of several kinds before `2.+3` and after the point. Before the point a blank leaves a
point without a digit. -/
theorem spaced_sum_alike :
    CleanCut "2.".toList "+3".toList ∧
      tokenize ("2." ++ "+3") = .ok [.number "2.", .operator (.binary .add), .number "3"] ∧
      Respaced "2.+3" "\u3000 2.\u2009\n+3" ∧
      evaluateSteps .standard "2.+3" = evaluateSteps .standard "\u3000 2.\u2009\n+3" ∧
      tokenize "2 .+3" = .error (.malformedNumber ".") := by
  have hcut : CleanCut "2.".toList "+3".toList := Or.inr (by simp [isNumeral])
  have hstart : InsertsBlanks "2.+3" "\u3000 2.+3" :=
    ⟨"", "\u3000 ", "2.+3", by decide, by decide, List.all_eq_true.1 (by decide),
      Or.inl (by simp)⟩
  have hmiddle : InsertsBlanks "\u3000 2.+3" "\u3000 2.\u2009\n+3" :=
    ⟨"\u3000 2.", "\u2009\n", "+3", by decide, by decide, List.all_eq_true.1 (by decide),
      Or.inr (by simp [isNumeral])⟩
  have hspaced : Respaced "2.+3" "\u3000 2.\u2009\n+3" :=
    .trans _ _ _ (.rel _ _ hstart) (.rel _ _ hmiddle)
  have hwhole := (spacing_irrelevant "2." "+3").1 hcut
  have hparts : tokenize "2." = .ok [.number "2."] ∧
      tokenize "+3" = .ok [.operator (.binary .add), .number "3"] := by decide +kernel
  rw [hparts.1, hparts.2] at hwhole
  exact ⟨hcut, hwhole, hspaced, ((spacing_irrelevant _ _).2 hspaced).2 .standard,
    by decide +kernel⟩

end ExactCalculator
