import ExactCalculator.CommandLine
import ExactCalculator.Proofs.Evaluation
import Mathlib.Data.List.Forall2

/-!
# A session is the sequence of its answers

What a session reads of an input is described without the program (`Session.Reads`): the lines are
cut at line feeds (`FirstLine`), and reading ends at the first line that spells an exit word in any
letter case, at the first line that is the encoding of no text, or with the input. To each text that
it reads before this, the session answers as if the text were its only expression
(`Session.transcript_of_reads`). So no line changes the answer to another one, nor how the session
ends (`Session.exists_reads_insert`), and nothing that follows the end is read
(`Session.Reads.append`).

The conversation is the loop that the program runs at its terminal. A turn of it only adds to what
is written (`Session.turn_cons`), so the loop writes the same whatever was written before
(`Session.converse_append`): this is what makes a transcript the answer to a line, then the
transcript of the other lines. Main statement: `session_answers`.
-/

namespace ExactCalculator

/-! ## Blanks -/

/-- Blanks at the ends of a text change nothing. -/
theorem evaluateSteps_trim (p : Precision) (text : String) :
    evaluateSteps p (String.ofList (Text.trim text.toList)) = evaluateSteps p text := by
  rw [evaluateSteps_eq, evaluateSteps_eq, Token.tokenize, Token.tokenize, String.toList_ofList,
    Token.scan_trim]

namespace Session

/-! ## Exit words -/

/-- The characters are those of the word, each in lower or in upper case. -/
def Spells (cs word : List Char) : Prop := List.Forall₂ (fun c w => c = w ∨ c = w.toUpper) cs word

/-- Without the blanks at its ends the text is an exit word. -/
def IsExit (text : String) : Prop :=
  ∃ word ∈ ["exit", "quit", "q"], Spells (Text.trim text.toList) word.toList

/-- What has a lower case letter for its lower case: the letter itself and its capital. -/
theorem toLower_eq_iff {c w : Char} (hw : w.isLower) :
    c.toLower = w ↔ c = w ∨ c = w.toUpper := by
  unfold Char.isLower at hw
  have hletter : w.val ≥ 'a'.val ∧ w.val ≤ 'z'.val := by simpa using hw
  unfold Char.toLower Char.toUpper
  rw [dif_pos hletter]
  simp only [Char.ext_iff, UInt32.le_iff_toNat_le, ← UInt32.toNat_inj] at hletter ⊢
  split <;> grind [UInt32.toNat_add]

theorem spells_iff {cs word : List Char} (h : ∀ w ∈ word, w.isLower) :
    Spells cs word ↔ cs.map Char.toLower = word := by
  rw [Spells]
  induction word generalizing cs with
  | nil => cases cs <;> simp
  | cons w word ih =>
    obtain ⟨hw, hword⟩ := List.forall_mem_cons.1 h
    cases cs with
    | nil => simp
    | cons c cs =>
      rw [List.forall₂_cons, List.map_cons, List.cons_eq_cons, toLower_eq_iff hw, ih hword]

theorem isExitCommand_iff (text : String) :
    isExitCommand (Text.trim text.toList) = true ↔ IsExit text := by
  have hall : (["exit", "quit", "q"].all fun word => word.toList.all Char.isLower) = true := rfl
  have hletters : ∀ word ∈ ["exit", "quit", "q"], ∀ w ∈ word.toList, w.isLower := by
    simpa only [List.all_eq_true] using hall
  rw [isExitCommand, decide_eq_true_iff, IsExit]
  constructor
  · intro h
    refine ⟨_, h, ?_⟩
    rw [spells_iff (hletters _ h), String.toList_ofList]
  · rintro ⟨word, hword, hspells⟩
    rwa [(spells_iff (hletters word hword)).1 hspells, String.ofList_toList]

instance : DecidablePred IsExit := fun text => decidable_of_iff _ (isExitCommand_iff text)

/-! ## Lines -/

/-- The encoding of a text. -/
def encode (text : String) : List UInt8 := text.toUTF8.data.toList

theorem decodeLine_eq_some_iff {line : List UInt8} {text : String} :
    decodeLine line = some text ↔ encode text = line := by
  rw [decodeLine, String.fromUTF8?]
  constructor
  · intro h
    split at h
    · cases h
      rfl
    · cases h
  · rintro rfl
    exact dif_pos text.isValidUTF8

theorem decodeLine_eq_none_iff {line : List UInt8} :
    decodeLine line = none ↔ ∀ text, encode text ≠ line := by
  simp only [Option.eq_none_iff_forall_not_mem, Option.mem_def, decodeLine_eq_some_iff, ne_eq]

/-- The first line of an input, up to its line feed or else to the end, and what follows it. -/
structure FirstLine (input line rest : List UInt8) : Prop where
  notMem : 10 ∉ line
  cut : input = line ++ 10 :: rest ∨ line ≠ [] ∧ input = line ∧ rest = []

theorem splitLines_append {line : List UInt8} (h : 10 ∉ line) (rest : List UInt8) :
    splitLines (line ++ 10 :: rest) = line :: splitLines rest := by
  induction line with
  | nil => rw [List.nil_append, splitLines, if_pos rfl]
  | cons b line ih =>
    rw [List.mem_cons, not_or] at h
    rw [List.cons_append, splitLines, if_neg (Ne.symm h.1), ih h.2]

theorem splitLines_singleton {line : List UInt8} (h : 10 ∉ line) (hne : line ≠ []) :
    splitLines line = [line] := by
  induction line with
  | nil => exact absurd rfl hne
  | cons b line ih =>
    rw [List.mem_cons, not_or] at h
    rw [splitLines, if_neg (Ne.symm h.1)]
    by_cases hline : line = []
    · subst hline
      rfl
    · rw [ih h.2 hline]

theorem FirstLine.splitLines_eq {input line rest : List UInt8} (h : FirstLine input line rest) :
    splitLines input = line :: splitLines rest := by
  rcases h.cut with rfl | ⟨hne, rfl, rfl⟩
  · exact splitLines_append h.notMem rest
  · exact splitLines_singleton h.notMem hne

theorem exists_firstLine {input : List UInt8} (hne : input ≠ []) :
    ∃ line rest, FirstLine input line rest := by
  induction input with
  | nil => exact absurd rfl hne
  | cons b bytes ih =>
    by_cases hb : b = 10
    · subst hb
      exact ⟨[], bytes, by simp, Or.inl rfl⟩
    · by_cases hbytes : bytes = []
      · subst hbytes
        exact ⟨[b], [], by simpa using Ne.symm hb, Or.inr ⟨by simp, rfl, rfl⟩⟩
      · obtain ⟨line, rest, hmem, hcut⟩ := ih hbytes
        refine ⟨b :: line, rest, by simp [Ne.symm hb, hmem], ?_⟩
        rcases hcut with rfl | ⟨-, rfl, rfl⟩
        · exact Or.inl rfl
        · exact Or.inr ⟨by simp, rfl, rfl⟩

/-- What holds without lines, and of every input if it holds after its first line. -/
theorem line_induction {motive : List UInt8 → Prop} (nil : motive [])
    (line : ∀ {input line rest}, FirstLine input line rest → motive rest → motive input)
    (input : List UInt8) : motive input := by
  induction hlines : splitLines input generalizing input with
  | nil =>
    by_cases hne : input = []
    · rwa [hne]
    · obtain ⟨line, rest, hline⟩ := exists_firstLine hne
      rw [hline.splitLines_eq] at hlines
      cases hlines
  | cons first lines ih =>
    have hne : input ≠ [] := by
      rintro rfl
      cases hlines
    obtain ⟨_, rest, hline⟩ := exists_firstLine hne
    rw [hline.splitLines_eq] at hlines
    exact line hline (ih rest (List.cons.inj hlines).2)

/-- The last line, if there is one, is ended by a line feed. -/
def IsComplete (input : List UInt8) : Prop := ∀ b ∈ input.getLast?, b = 10

instance (input : List UInt8) : Decidable (IsComplete input) :=
  inferInstanceAs (Decidable (∀ b ∈ input.getLast?, b = 10))

theorem FirstLine.append {input line rest : List UInt8} (h : FirstLine input line rest)
    (hinput : IsComplete input) (more : List UInt8) :
    FirstLine (input ++ more) line (rest ++ more) ∧ IsComplete rest := by
  rcases h.cut with rfl | ⟨hne, rfl, rfl⟩
  · refine ⟨⟨h.notMem, Or.inl (by simp)⟩, ?_⟩
    intro b hb
    refine hinput b ?_
    rw [Option.mem_def] at hb ⊢
    rw [List.getLast?_append, List.getLast?_cons, hb]
    rfl
  · have hlast := hinput _ (List.getLast?_eq_some_getLast hne)
    exact absurd (hlast ▸ List.getLast_mem hne) h.notMem

/-! ## What is read -/

/-- How a session ends. -/
inductive Ending where
  | endOfInput
  | exitWord
  | unreadable
  deriving DecidableEq, Repr

/-- What is written after the last prompt. -/
def Ending.text : Ending → String
  | endOfInput => "\n"
  | exitWord | unreadable => ""

def Ending.exitCode : Ending → ℕ
  | endOfInput | exitWord => 0
  | unreadable => 1

/-- The texts that are read, one from each line, and why no more are read. -/
inductive Reads : List UInt8 → List String → Ending → Prop
  | endOfInput : Reads [] [] .endOfInput
  | exitWord {input rest : List UInt8} {text : String} :
      FirstLine input (encode text) rest → IsExit text → Reads input [] .exitWord
  | unreadable {input line rest : List UInt8} :
      FirstLine input line rest → (∀ text, encode text ≠ line) → Reads input [] .unreadable
  | line {input rest : List UInt8} {text : String} {texts : List String} {ending : Ending} :
      FirstLine input (encode text) rest → ¬IsExit text → Reads rest texts ending →
        Reads input (text :: texts) ending

/-- A line ends the session with its exit word or as unreadable, or is read. -/
theorem line_cases (line : List UInt8) :
    (∃ text, encode text = line ∧ IsExit text) ∨ (∀ text, encode text ≠ line) ∨
      ∃ text, encode text = line ∧ ¬IsExit text := by
  by_cases h : ∃ text, encode text = line
  · obtain ⟨text, htext⟩ := h
    by_cases hexit : IsExit text
    · exact Or.inl ⟨text, htext, hexit⟩
    · exact Or.inr (Or.inr ⟨text, htext, hexit⟩)
  · exact Or.inr (Or.inl (not_exists.1 h))

theorem exists_reads (input : List UInt8) : ∃ texts ending, Reads input texts ending := by
  induction input using line_induction with
  | nil => exact ⟨[], _, .endOfInput⟩
  | @line input line rest hline ih =>
    rcases line_cases line with ⟨text, rfl, hexit⟩ | hnone | ⟨text, rfl, hexit⟩
    · exact ⟨[], _, .exitWord hline hexit⟩
    · exact ⟨[], _, .unreadable hline hnone⟩
    · obtain ⟨texts, ending, hrest⟩ := ih
      exact ⟨text :: texts, ending, .line hline hexit hrest⟩

/-- Nothing is read after the line that ends the session. -/
theorem Reads.append {input : List UInt8} {texts : List String} {ending : Ending}
    (h : Reads input texts ending) (hending : ending ≠ .endOfInput) (hinput : IsComplete input)
    (more : List UInt8) : Reads (input ++ more) texts ending := by
  induction h with
  | endOfInput => exact absurd rfl hending
  | exitWord hline hexit => exact .exitWord (hline.append hinput more).1 hexit
  | unreadable hline hnone => exact .unreadable (hline.append hinput more).1 hnone
  | line hline hexit _ ih =>
    obtain ⟨hline', hrest⟩ := hline.append hinput more
    exact .line hline' hexit (ih hending hrest)

/-- One more line that does not end the session is read besides the others, or comes too late to be
read. -/
theorem exists_reads_insert {text : String} (hmem : 10 ∉ encode text) (hexit : ¬IsExit text)
    {before : List UInt8} (hbefore : IsComplete before) (after : List UInt8) :
    ∃ texts texts' ending, Reads (before ++ after) texts ending ∧
      Reads (before ++ (encode text ++ 10 :: after)) texts' ending ∧
      (texts' = texts ∨ ∃ l r, texts = l ++ r ∧ texts' = l ++ text :: r) := by
  induction before using line_induction with
  | nil =>
    obtain ⟨texts, ending, h⟩ := exists_reads after
    exact ⟨texts, text :: texts, ending, h, .line ⟨hmem, Or.inl rfl⟩ hexit h,
      Or.inr ⟨[], texts, rfl, rfl⟩⟩
  | @line before line rest hline ih =>
    obtain ⟨hafter, hrest⟩ := hline.append hbefore after
    have hinsert := (hline.append hbefore (encode text ++ 10 :: after)).1
    rcases line_cases line with ⟨first, rfl, hfirst⟩ | hnone | ⟨first, rfl, hfirst⟩
    · exact ⟨[], [], _, .exitWord hafter hfirst, .exitWord hinsert hfirst, Or.inl rfl⟩
    · exact ⟨[], [], _, .unreadable hafter hnone, .unreadable hinsert hnone, Or.inl rfl⟩
    · obtain ⟨texts, texts', ending, h, h', hsame⟩ := ih hrest
      refine ⟨first :: texts, first :: texts', ending, .line hafter hfirst h,
        .line hinsert hfirst h', ?_⟩
      rcases hsame with rfl | ⟨l, r, rfl, rfl⟩
      · exact Or.inl rfl
      · exact Or.inr ⟨first :: l, r, rfl, rfl⟩

/-! ## Turns -/

variable {p : Precision} {showRpn : Bool}

/-- What a line makes the session write. -/
def Reply.text : Reply → String
  | write text => text
  | silent | leave | unreadable => ""

/-- The exit code, if the line ends the session. -/
def Reply.outcome : Reply → Unit ⊕ ℕ
  | silent | write _ => .inl ()
  | leave => .inr 0
  | unreadable => .inr 1

theorem turn_nil (written : String) :
    turn Console.readLine Console.write p showRpn ⟨[], written⟩ =
      (.inr 0, ⟨[], written ++ prompt ++ "\n"⟩) :=
  rfl

theorem turn_cons {line : List UInt8} {outcome : Unit ⊕ ℕ}
    (h : (reply p showRpn line).outcome = outcome) (lines : List (List UInt8)) (written : String) :
    turn Console.readLine Console.write p showRpn ⟨line :: lines, written⟩ =
      (outcome, ⟨lines, written ++ prompt ++ (reply p showRpn line).text⟩) := by
  subst h
  simp only [turn, bind, StateT.bind, Console.readLine, Console.write]
  cases reply p showRpn line with
  | write text => rfl
  | silent | leave | unreadable =>
    rw [Reply.text, String.append_empty]
    rfl

/-- A turn that does not end the session is followed by the rest of the conversation. -/
theorem converse_of_inl {c c' : Console}
    (h : turn Console.readLine Console.write p showRpn c = (.inl (), c')) :
    converse Console.readLine Console.write p showRpn c =
      converse Console.readLine Console.write p showRpn c' := by
  -- The loop stands on both sides, and only the left one takes a turn.
  conv_lhs => rw [converse, repeatM_eq_of_monadTail]
  change (StateT.bind (turn Console.readLine Console.write p showRpn) _ : StateM Console ℕ) c = _
  rw [StateT.bind, h]
  rfl

theorem converse_of_inr {c c' : Console} {exitCode : ℕ}
    (h : turn Console.readLine Console.write p showRpn c = (.inr exitCode, c')) :
    converse Console.readLine Console.write p showRpn c = (exitCode, c') := by
  rw [converse, repeatM_eq_of_monadTail]
  change (StateT.bind (turn Console.readLine Console.write p showRpn) _ : StateM Console ℕ) c = _
  rw [StateT.bind, h]
  rfl

/-- What was written before a conversation stays in front of what it writes. -/
theorem converse_append (p : Precision) (showRpn : Bool) (before : String)
    (lines : List (List UInt8)) (written : String) :
    ∃ exitCode c,
      converse Console.readLine Console.write p showRpn ⟨lines, written⟩ = (exitCode, c) ∧
        converse Console.readLine Console.write p showRpn ⟨lines, before ++ written⟩ =
          (exitCode, ⟨c.lines, before ++ c.written⟩) := by
  induction lines generalizing written with
  | nil =>
    refine ⟨_, _, converse_of_inr (turn_nil written), ?_⟩
    rw [converse_of_inr (turn_nil (before ++ written))]
    simp only [String.append_assoc]
  | cons line lines ih =>
    cases houtcome : (reply p showRpn line).outcome with
    | inr exitCode =>
      rw [converse_of_inr (turn_cons houtcome lines written),
        converse_of_inr (turn_cons houtcome lines (before ++ written))]
      exact ⟨_, _, rfl, by simp only [String.append_assoc]⟩
    | inl =>
      rw [converse_of_inl (turn_cons houtcome lines written),
        converse_of_inl (turn_cons houtcome lines (before ++ written))]
      simpa only [String.append_assoc] using
        ih (written ++ prompt ++ (reply p showRpn line).text)

theorem transcript_nil : transcript p showRpn [] = ⟨prompt ++ "\n", 0⟩ := by
  rw [transcript, converse_of_inr (turn_nil "")]
  rfl

/-- A line that ends the session is the last to be answered. -/
theorem transcript_cons_of_inr {line : List UInt8} {exitCode : ℕ}
    (h : (reply p showRpn line).outcome = .inr exitCode) (lines : List (List UInt8)) :
    transcript p showRpn (line :: lines) =
      ⟨prompt ++ (reply p showRpn line).text, exitCode⟩ := by
  rw [transcript, converse_of_inr (turn_cons h lines ""), String.empty_append]

theorem transcript_cons_of_inl {line : List UInt8}
    (h : (reply p showRpn line).outcome = .inl ()) (lines : List (List UInt8)) :
    transcript p showRpn (line :: lines) =
      ⟨prompt ++ (reply p showRpn line).text ++ (transcript p showRpn lines).output,
        (transcript p showRpn lines).exitCode⟩ := by
  obtain ⟨exitCode, c, hlines, hafter⟩ :=
    converse_append p showRpn (prompt ++ (reply p showRpn line).text) lines ""
  rw [String.append_empty] at hafter
  rw [transcript, transcript, converse_of_inl (turn_cons h lines ""),
    String.empty_append, hlines, hafter]

/-! ## What is answered -/

/-- What is written for a text: nothing if it is blank, and otherwise what is written if it is the
only expression. -/
def answerText (p : Precision) (showRpn : Bool) (text : String) : String :=
  if text.toList.all Text.isBlank then "" else (oneShot p showRpn text).output

theorem reply_of_unreadable {line : List UInt8} (h : ∀ text, encode text ≠ line) :
    reply p showRpn line = .unreadable := by
  rw [reply, decodeLine_eq_none_iff.2 h]

theorem reply_encode (p : Precision) (showRpn : Bool) (text : String) :
    reply p showRpn (encode text) =
      if text.toList.all Text.isBlank then .silent
      else if isExitCommand (Text.trim text.toList) then .leave
      else .write (oneShot p showRpn text).output := by
  have hsteps := evaluateSteps_trim p text
  rw [reply, decodeLine_eq_some_iff.2 rfl]
  simp only
  cases htrim : Text.trim text.toList with
  | nil => rw [if_pos (List.all_eq_true.2 (Text.trim_eq_nil_iff.1 htrim))]
  | cons c cs =>
    have hblank : text.toList.all Text.isBlank ≠ true := by
      intro hall
      rw [Text.trim_eq_nil_iff.2 (List.all_eq_true.1 hall)] at htrim
      cases htrim
    rw [htrim] at hsteps
    rw [if_neg hblank]
    simp only [hsteps, oneShot]

theorem reply_of_isExit {text : String} (h : IsExit text) :
    reply p showRpn (encode text) = .leave := by
  have hexit := (isExitCommand_iff text).2 h
  have hblank : text.toList.all Text.isBlank ≠ true := by
    intro hall
    rw [Text.trim_eq_nil_iff.2 (List.all_eq_true.1 hall)] at hexit
    cases hexit
  rw [reply_encode, if_neg hblank, if_pos hexit]

theorem reply_of_not_isExit {text : String} (h : ¬IsExit text) :
    reply p showRpn (encode text) =
      if text.toList.all Text.isBlank then .silent else .write (answerText p showRpn text) := by
  rw [← isExitCommand_iff] at h
  rw [reply_encode, if_neg h, answerText]
  split <;> rfl

/-- The session answers to every text that it reads, and ends as its reading does. -/
theorem transcript_of_reads {input : List UInt8} {texts : List String} {ending : Ending}
    (h : Reads input texts ending) :
    transcript p showRpn (splitLines input) =
      ⟨String.join (texts.map fun text => prompt ++ answerText p showRpn text) ++ prompt ++
        ending.text, ending.exitCode⟩ := by
  induction h with
  | endOfInput => exact transcript_nil
  | exitWord hline hexit =>
    have hreply : reply p showRpn _ = .leave := reply_of_isExit hexit
    rw [hline.splitLines_eq, transcript_cons_of_inr (congrArg Reply.outcome hreply), hreply]
    rfl
  | unreadable hline hnone =>
    have hreply : reply p showRpn _ = .unreadable := reply_of_unreadable hnone
    rw [hline.splitLines_eq, transcript_cons_of_inr (congrArg Reply.outcome hreply), hreply]
    rfl
  | @line input rest text texts ending hline hexit _ ih =>
    have hreply : reply p showRpn (encode text) = _ := reply_of_not_isExit hexit
    rw [hline.splitLines_eq, List.map_cons, String.join_cons]
    by_cases hblank : text.toList.all Text.isBlank = true
    · rw [if_pos hblank] at hreply
      rw [transcript_cons_of_inl (congrArg Reply.outcome hreply), hreply, ih, answerText,
        if_pos hblank]
      simp only [Reply.text, String.append_assoc]
    · rw [if_neg hblank] at hreply
      rw [transcript_cons_of_inl (congrArg Reply.outcome hreply), hreply, ih]
      simp only [Reply.text, String.append_assoc]

end Session

namespace CommandLine

open Session

/-- What is written for a line that is read: a prompt and, unless the line is blank, what is written
if its text is the only word. -/
def lineOutput (o : Options) (text : String) : String :=
  prompt ++
    if text.toList.all Text.isBlank then "" else (session { o with words := [text] } []).output

theorem lineOutput_eq (o : Options) (text : String) :
    lineOutput o text = prompt ++ answerText (workingPrecision o) o.showRpn text := by
  have hword : " ".intercalate [text] = text := by simp
  have hsession : session { o with words := [text] } [] =
      oneShot (workingPrecision o) o.showRpn (" ".intercalate [text]) := rfl
  rw [lineOutput, answerText, hsession, hword]

theorem session_of_reads {o : Options} (ho : o.words = []) {input : List UInt8}
    {texts : List String} {ending : Ending} (h : Reads input texts ending) :
    session o input =
      ⟨banner ++ (String.join (texts.map (lineOutput o)) ++ prompt ++ ending.text),
        ending.exitCode⟩ := by
  have hlines : lineOutput o = fun text =>
      prompt ++ answerText (workingPrecision o) o.showRpn text := funext (lineOutput_eq o)
  rw [session, ho, hlines]
  simp only [List.isEmpty_nil, ↓reduceIte, interactive, transcript_of_reads h]

theorem session_insert {o : Options} (ho : o.words = []) {text : String}
    (hmem : 10 ∉ encode text) (hexit : ¬IsExit text) {before : List UInt8}
    (hbefore : IsComplete before) (after : List UInt8) :
    (session o (before ++ (encode text ++ 10 :: after))).exitCode =
        (session o (before ++ after)).exitCode ∧
      ∃ x y, (session o (before ++ after)).output = x ++ y ∧
        ((session o (before ++ (encode text ++ 10 :: after))).output = x ++ y ∨
          (session o (before ++ (encode text ++ 10 :: after))).output =
            x ++ lineOutput o text ++ y) := by
  obtain ⟨texts, texts', ending, h, h', hsame⟩ := exists_reads_insert hmem hexit hbefore after
  rw [session_of_reads ho h, session_of_reads ho h']
  refine ⟨rfl, ?_⟩
  rcases hsame with rfl | ⟨l, r, rfl, rfl⟩
  · exact ⟨_, "", (String.append_empty).symm, Or.inl (String.append_empty).symm⟩
  · refine ⟨banner ++ String.join (l.map (lineOutput o)),
      String.join (r.map (lineOutput o)) ++ prompt ++ ending.text, ?_, Or.inr ?_⟩
    · simp [String.join_append, String.append_assoc]
    · simp [String.join_append, String.append_assoc]

theorem exitCode_oneShot {o : Options} (ho : o.words ≠ []) (input : List UInt8) :
    (session o input).exitCode = 0 ↔
      ∃ s, evaluateSteps (workingPrecision o) (" ".intercalate o.words) = .ok s := by
  rw [session, if_neg (by simpa using ho), oneShot]
  cases evaluateSteps (workingPrecision o) (" ".intercalate o.words) <;> simp

/-- Without words a session reads some texts of its input, up to the first line that ends it, and
answers to each as if it were the only word; it ends with the exit code of the ending. So a line
that does not end the session changes nothing but its own answer, and what follows the end changes
nothing. With words it succeeds exactly when their evaluation does. -/
theorem session_answers (o : Options) :
    (o.words = [] →
      (∀ input, (∃ texts ending, Reads input texts ending) ∧
        ∀ texts ending, Reads input texts ending → session o input =
          ⟨banner ++ (String.join (texts.map (lineOutput o)) ++ prompt ++ ending.text),
            ending.exitCode⟩) ∧
      (∀ text before after, 10 ∉ encode text → ¬IsExit text → IsComplete before →
        (session o (before ++ (encode text ++ 10 :: after))).exitCode =
            (session o (before ++ after)).exitCode ∧
          ∃ x y, (session o (before ++ after)).output = x ++ y ∧
            ((session o (before ++ (encode text ++ 10 :: after))).output = x ++ y ∨
              (session o (before ++ (encode text ++ 10 :: after))).output =
                x ++ lineOutput o text ++ y)) ∧
      ∀ input texts ending more, Reads input texts ending → ending ≠ .endOfInput →
        IsComplete input → session o (input ++ more) = session o input) ∧
    (o.words ≠ [] → ∀ input, (session o input).exitCode = 0 ↔
      ∃ s, evaluateSteps (workingPrecision o) (" ".intercalate o.words) = .ok s) := by
  refine ⟨fun ho => ⟨?_, ?_, ?_⟩, exitCode_oneShot⟩
  · exact fun input => ⟨exists_reads input, fun texts ending h => session_of_reads ho h⟩
  · exact fun text before after hmem hexit hbefore => session_insert ho hmem hexit hbefore after
  · intro input texts ending more h hending hinput
    rw [session_of_reads ho h, session_of_reads ho (h.append hending hinput more)]

/-- A failing line, a blank one and a quotient, then an exit word among blanks; a failing line among
others; a line that is no text; and words. -/
theorem session_with_quotient :
    session ⟨some 5, true, []⟩ (encode "1/0\n\n 2/3\n\tQuIt \n9*9") =
        ⟨banner ++ "> Erreur : division par zéro\n> > RPN : 2 3 /\n0.66667\n> ", 0⟩ ∧
      (session ⟨some 5, true, []⟩
          (encode "7\n" ++ (encode "1/0" ++ 10 :: encode "8\nq"))).exitCode =
        (session ⟨some 5, true, []⟩ (encode "7\n" ++ encode "8\nq")).exitCode ∧
      session ⟨none, false, []⟩ ([49, 10, 255, 10] ++ encode "2\n") =
        session ⟨none, false, []⟩ [49, 10, 255, 10] ∧
      (session ⟨none, false, ["1/3", "-", "1/3"]⟩ []).exitCode = 0 := by
  have hquit : Reads (encode "\tQuIt \n9*9") [] .exitWord :=
    .exitWord (show FirstLine _ (encode "\tQuIt ") (encode "9*9") from
      ⟨by decide +kernel, Or.inl (by decide +kernel)⟩) (by decide +kernel)
  have hquotient : Reads (encode " 2/3\n\tQuIt \n9*9") [" 2/3"] .exitWord :=
    .line ⟨by decide +kernel, Or.inl (by decide +kernel)⟩ (by decide +kernel) hquit
  have hblank : Reads (encode "\n 2/3\n\tQuIt \n9*9") ["", " 2/3"] .exitWord :=
    .line ⟨by decide +kernel, Or.inl (by decide +kernel)⟩ (by decide +kernel) hquotient
  have hreads : Reads (encode "1/0\n\n 2/3\n\tQuIt \n9*9") ["1/0", "", " 2/3"] .exitWord :=
    .line ⟨by decide +kernel, Or.inl (by decide +kernel)⟩ (by decide +kernel) hblank
  have hunreadable : Reads [255, 10] [] .unreadable :=
    .unreadable (show FirstLine _ [255] [] from ⟨by decide, Or.inl rfl⟩)
      (decodeLine_eq_none_iff.1 (by decide +kernel))
  have hone : Reads [49, 10, 255, 10] ["1"] .unreadable :=
    .line ⟨by decide +kernel, Or.inl (by decide +kernel)⟩ (by decide +kernel) hunreadable
  obtain ⟨hanswers, hinsert, -⟩ := (session_answers ⟨some 5, true, []⟩).1 rfl
  obtain ⟨-, -, happend⟩ := (session_answers ⟨none, false, []⟩).1 rfl
  refine ⟨((hanswers _).2 _ _ hreads).trans (by decide +kernel), ?_, ?_, ?_⟩
  · exact (hinsert "1/0" _ _ (by decide +kernel) (by decide +kernel) (by decide +kernel)).1
  · exact happend _ _ _ _ hone (by decide +kernel) (by decide +kernel)
  · exact ((session_answers ⟨none, false, ["1/3", "-", "1/3"]⟩).2 (by decide) []).2
      ⟨⟨.zero, "1 / 3 - 1 / 3", "1 3 / 1 3 / -"⟩, by decide +kernel⟩

end CommandLine

end ExactCalculator
