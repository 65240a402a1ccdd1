import ExactCalculator.Evaluation
import ExactCalculator.Panel.Key

/-!
# Calculator panel

The state of a calculator with a keypad, and what its keys and fields do to it.

* `Panel` holds the entry, the last result, the last error, the displayed steps and the
  precision;
* `Panel.act` is the effect of one `Action`;
* `Panel.history` lists the states of a run.
-/

namespace ExactCalculator

structure Panel where
  entry : String
  result : String
  error : String
  tokens : String
  rpn : String
  precision : Precision
  deriving DecidableEq, Repr

inductive Action where
  | press (key : Key)
  | enter
  | escape
  | setEntry (text : String)
  | setPrecision (requested : Nat)
  /-- Typing digits into the precision field. Typing none leaves the precision. -/
  | typePrecision (digits : String)
  /-- Showing the evaluation of a text that is not the entry. -/
  | apply (text : String)
  deriving DecidableEq, Repr

namespace Panel

def initial : Panel := ⟨"", "", "", "", "", .standard⟩

/-! ## The entry -/

def append (p : Panel) (text : String) : Panel := { p with entry := p.entry ++ text }

/-- An operator stands between single spaces, without one in front at the start. -/
def appendOperator (p : Panel) (op : BinaryOperator) : Panel :=
  let before := Text.trimmedEnd p.entry
  let spaced := if before.isEmpty then before else before ++ " "
  { p with entry := spaced ++ (Operator.binary op).symbol ++ " " }

/-- Removes the last character that is not blank, and the blanks around it. -/
def deleteLast (p : Panel) : Panel :=
  let kept := (Text.trimEnd p.entry.toList).dropLast
  { p with entry := String.ofList (Text.trimEnd kept) }

def clearEntry (p : Panel) : Panel := { p with entry := "" }

/-! ## The outputs -/

def clearResults (p : Panel) : Panel := { p with result := "", error := "", tokens := "", rpn := "" }

/-- Shows a verdict. An error leaves the last result in place, but not its steps. -/
def display (p : Panel) : Except EvalError Steps → Panel
  | .ok s => { p with result := s.result.toText, error := "", tokens := s.tokens, rpn := s.rpn }
  | .error e => { p with error := e.message, tokens := "", rpn := "" }

def showEvaluation (p : Panel) (text : String) : Panel := p.display (evaluateSteps p.precision text)

/-! ## Actions -/

def setPrecision (p : Panel) (requested : Nat) : Panel :=
  { p with precision := .clamp requested }

def press (p : Panel) : Key → Panel
  | .digit d => p.append (Key.digit d).label
  | .point => p.append Key.point.label
  | .opening => p.append Key.opening.label
  | .closing => p.append Key.closing.label
  | .operator op => p.appendOperator op
  | .delete => p.deleteLast
  | .equals => p.showEvaluation p.entry
  | .clear => p.clearEntry
  | .clearResults => p.clearResults
  | .clearAll => initial

def act (p : Panel) : Action → Panel
  | .press key => p.press key
  | .enter => p.press .equals
  | .escape => p.clearEntry
  | .setEntry text => { p with entry := text }
  | .setPrecision requested => p.setPrecision requested
  | .typePrecision digits =>
    if digits.isEmpty then p else p.setPrecision (Nat.ofDigitChars 10 digits.toList 0)
  | .apply text => p.showEvaluation text

/-- The states of a run, from the given one on. -/
def history (p : Panel) : List Action → List Panel
  | [] => [p]
  | a :: actions => p :: (p.act a).history actions

end Panel

end ExactCalculator
