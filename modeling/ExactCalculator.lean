import ExactCalculator.Main
import ExactCalculator.Panel
import ExactCalculator.Proofs.Runs
import ExactCalculator.Proofs.Expression
import ExactCalculator.Proofs.Grammar
import ExactCalculator.Proofs.Conversion
import ExactCalculator.Proofs.DigitCount
import ExactCalculator.Proofs.Rounding.Nearest
import ExactCalculator.Proofs.Scanning
import ExactCalculator.Proofs.Value
import ExactCalculator.Proofs.Rounding.Correct
import ExactCalculator.Proofs.Rounding.Stages
import ExactCalculator.Proofs.Arithmetic
import ExactCalculator.Proofs.Division
import ExactCalculator.Proofs.DigitBounds
import ExactCalculator.Proofs.Literal
import ExactCalculator.Proofs.Evaluation
import ExactCalculator.Proofs.StandardReading
import ExactCalculator.Proofs.Acceptance
import ExactCalculator.Proofs.NormalForm
import ExactCalculator.Proofs.DigitString
import ExactCalculator.Proofs.PlainText
import ExactCalculator.Proofs.ReadBack
import ExactCalculator.Proofs.Postorder
import ExactCalculator.Proofs.Exponents.Fits
import ExactCalculator.Proofs.Exponents.Operations
import ExactCalculator.Proofs.Exponents.Width
import ExactCalculator.Proofs.Exponents.Evaluation
import ExactCalculator.Proofs.Verdict
import ExactCalculator.Proofs.Parentheses
import ExactCalculator.Proofs.Pieces
import ExactCalculator.Proofs.DisplayedSteps
import ExactCalculator.Proofs.Exactness
import ExactCalculator.Proofs.Panel.History
import ExactCalculator.Proofs.Panel.Keypad
import ExactCalculator.Proofs.Panel.Freshness
import ExactCalculator.Proofs.SessionAnswers
import ExactCalculator.Proofs.Comparison
import ExactCalculator.Proofs.LiteralReading
import ExactCalculator.Proofs.Rearrangement
import ExactCalculator.Proofs.SignSymmetry
import ExactCalculator.Proofs.Spacing
import ExactCalculator.Proofs.Monotonicity
import ExactCalculator.Proofs.Journal.PopOrder
import ExactCalculator.Proofs.Journal.Popping
import ExactCalculator.Proofs.Journal.Completion
import ExactCalculator.Proofs.Journal.Account
