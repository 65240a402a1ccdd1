import ExactCalculator.Evaluation

/-!
# Sessions

What the calculator writes when it is given expressions as text, and the exit code it ends with.

* `answer`: the lines written for one evaluation;
* `Session.oneShot`: the evaluation of one expression;
* `Session.converse`: the evaluation of lines, each after a prompt, until an exit command, a line
  that is not UTF-8, or the end, wherever lines are read from and answers written to;
* `Session.transcript`: what a conversation over lines that are given writes;
* `Session.interactive`: what is written for all lines of an input.
-/

namespace ExactCalculator

/-- What was written, and the exit code. -/
structure Transcript where
  output : String
  exitCode : Nat
  deriving DecidableEq, Repr

/-- The lines written for a verdict, the reverse Polish notation first if it is asked for. -/
def answer (showRpn : Bool) : Except EvalError Steps → String
  | .ok s =>
    (if showRpn then "RPN : " ++ s.rpn ++ "\n" else "") ++ s.result.toText ++ "\n"
  | .error e => "Erreur : " ++ e.message ++ "\n"

namespace Session

def oneShot (p : Precision) (showRpn : Bool) (text : String) : Transcript :=
  let verdict := evaluateSteps p text
  ⟨answer showRpn verdict, match verdict with | .ok _ => 0 | .error _ => 1⟩

/-! ## Lines -/

def banner : String :=
  "Calculatrice décimale. Entrez une expression ou « exit » pour quitter.\n"

def prompt : String := "> "

/-- The lines of an input, without the line feeds that end them. -/
def splitLines : List UInt8 → List (List UInt8)
  | [] => []
  | b :: bytes =>
    if b = 10 then [] :: splitLines bytes
    else
      match splitLines bytes with
      | [] => [[b]]
      | line :: lines => (b :: line) :: lines

def decodeLine (bytes : List UInt8) : Option String := String.fromUTF8? ⟨bytes.toArray⟩

/-- The words that end a session, in any letter case. Only ASCII letters fold to the letters of
these words. -/
def isExitCommand (cs : List Char) : Bool :=
  String.ofList (cs.map Char.toLower) ∈ ["exit", "quit", "q"]

/-- What a line calls for. -/
inductive Reply where
  /-- The line is blank. -/
  | silent
  | write (text : String)
  | leave
  /-- The line is not UTF-8. -/
  | unreadable
  deriving DecidableEq, Repr

def reply (p : Precision) (showRpn : Bool) (line : List UInt8) : Reply :=
  match decodeLine line with
  | none => .unreadable
  | some text =>
    match Text.trim text.toList with
    | [] => .silent
    | cs =>
      if isExitCommand cs then .leave
      else .write (answer showRpn (evaluateSteps p (String.ofList cs)))

/-! ## Conversation -/

section

variable {m : Type → Type} [Monad m]

/-- A prompt, and what the next line calls for. The answer is the exit code if that ends the
session. -/
def turn (readLine : m (Option (List UInt8))) (write : String → m Unit) (p : Precision)
    (showRpn : Bool) : m (Unit ⊕ Nat) := do
  write prompt
  match ← readLine with
  | none =>
    write "\n"
    return .inr 0
  | some line =>
    match reply p showRpn line with
    | .silent => return .inl ()
    | .write text =>
      write text
      return .inl ()
    | .leave => return .inr 0
    | .unreadable => return .inr 1

/-- Takes turns until the session ends. -/
def converse (readLine : m (Option (List UInt8))) (write : String → m Unit) (p : Precision)
    (showRpn : Bool) : m Nat :=
  repeatM (fun _ => turn readLine write p showRpn) ()

end

/-! ## Transcripts -/

/-- The lines that are left to be read, and what has been written. -/
structure Console where
  lines : List (List UInt8)
  written : String

instance : Inhabited Console := ⟨⟨[], ""⟩⟩

namespace Console

def readLine : StateM Console (Option (List UInt8)) := fun c =>
  match c.lines with
  | [] => (none, c)
  | line :: lines => (some line, ⟨lines, c.written⟩)

def write (text : String) : StateM Console Unit := fun c => ((), ⟨c.lines, c.written ++ text⟩)

end Console

/-- What a conversation over the lines writes, and the exit code it ends with. -/
def transcript (p : Precision) (showRpn : Bool) (lines : List (List UInt8)) : Transcript :=
  let (exitCode, console) := converse Console.readLine Console.write p showRpn ⟨lines, ""⟩
  ⟨console.written, exitCode⟩

def interactive (p : Precision) (showRpn : Bool) (input : List UInt8) : Transcript :=
  let rest := transcript p showRpn (splitLines input)
  ⟨banner ++ rest.output, rest.exitCode⟩

end Session

end ExactCalculator
