import ExactCalculator.Decimal.Literal
import ExactCalculator.Text.Blank
import ExactCalculator.Token

/-!
# Reading tokens

`Token.scan` reads a text from left to right: blanks are skipped, a symbol is a token, and a
longest run of digits and points is one number, which has to be a literal as a whole. Reading
stops at the first fault. Every operator is read as binary.
-/

namespace ExactCalculator

namespace Token

/-- The token that one character stands for. -/
def ofSymbol? : Char → Option Token
  | '(' => some opening
  | ')' => some closing
  | '+' => some (operator (.binary .add))
  | '-' => some (operator (.binary .sub))
  | '*' => some (operator (.binary .mul))
  | '/' => some (operator (.binary .div))
  | _ => none

/-- The characters that numbers are made of: ASCII digits and the point. -/
def isNumeral (c : Char) : Bool := c.isDigit || c == '.'

def scan : List Char → Except EvalError (List Token)
  | [] => .ok []
  | c :: cs =>
    if Text.isBlank c then scan cs
    else
      match ofSymbol? c with
      | some token => (scan cs).map (token :: ·)
      | none =>
        if isNumeral c then
          let run := c :: cs.takeWhile isNumeral
          if isLiteral run then
            (scan (cs.dropWhile isNumeral)).map (number (String.ofList run) :: ·)
          else .error (.malformedNumber (String.ofList run))
        else .error (.invalidCharacter c)
termination_by cs => cs.length
decreasing_by
  · simp
  · simp
  · have h := (List.dropWhile_sublist isNumeral (l := cs)).length_le
    simp only [List.length_cons]
    omega

/-- The tokens of a text, or the error of its first fault. -/
def tokenize (text : String) : Except EvalError (List Token) := scan text.toList

end Token

end ExactCalculator
