import ExactCalculator.CommandLine.Command
import ExactCalculator.Session

/-!
# Command line

Carries out a command: the evaluation of the expression that the arguments spell, or of the
lines of an input if they spell none, at the precision they ask for. `CommandLine.run` gives
what is written and the exit code.
-/

namespace ExactCalculator

namespace CommandLine

def versionText : String := "calc 0.1.0\n"

def helpText : String := "Évalue des expressions arithmétiques en décimal exact\n"

/-- Told to the user whose arguments are refused. -/
def usageText : String := "Usage : calc [--precision N] [--rpn] [-v] [--] [EXPRESSION]\n"

/-- The working precision that the options ask for. -/
def workingPrecision (o : Options) : Precision :=
  match o.precision with
  | some requested => .clamp requested
  | none => .standard

/-- The session that the options ask for, on a given input. -/
def session (o : Options) (input : List UInt8) : Transcript :=
  if o.words.isEmpty then Session.interactive (workingPrecision o) o.showRpn input
  else Session.oneShot (workingPrecision o) o.showRpn (" ".intercalate o.words)

/-- What is written, and the exit code; nothing if the arguments are refused. When the output
cannot be written, a session fails at its first line, and the version or help is lost. -/
def run (arguments : List String) (environment : Option String) (input : List UInt8)
    (writable : Bool) : Option Transcript :=
  match Command.ofArguments arguments environment with
  | .refused => none
  | .version => some ⟨if writable then versionText else "", 0⟩
  | .help => some ⟨if writable then helpText else "", 0⟩
  | .evaluate o => some (if writable then session o input else ⟨"", 1⟩)

end CommandLine

end ExactCalculator
