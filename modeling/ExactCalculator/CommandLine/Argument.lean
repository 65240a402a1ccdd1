/-!
# Arguments

What one command line argument is, on its own: an option, the separator `--`, or a word of the
expression. Only the known options are options, so that an expression may start with a sign.
-/

namespace ExactCalculator

/-- The options that one argument can be. -/
inductive Argument where
  /-- `--` -/
  | separator
  /-- `--precision`, with the text after `=` if there is one. -/
  | precision (value : Option String)
  | rpn
  | verbose
  | version
  | help
  /-- A value for an option that takes none. -/
  | unwantedValue
  /-- Not an option. -/
  | word
  deriving DecidableEq, Repr

namespace Argument

/-- The option named after two dashes. -/
def ofLongName (name : String) (value : Option String) : Argument :=
  if name = "precision" then precision value
  else
    match [("rpn", rpn), ("verbose", verbose), ("version", version), ("help", help)].lookup name,
        value with
    | some option, none => option
    | some _, some _ => unwantedValue
    | none, _ => word

/-- The letters after one dash: `v` may be repeated, and `V` and `h` end the reading. A dash
before anything else begins an expression. -/
def ofLetters (letters : List Char) : Argument :=
  if letters.isEmpty || !letters.all (['v', 'V', 'h'].contains ·) then word
  else
    match letters.find? (· != 'v') with
    | none => verbose
    | some 'V' => version
    | some _ => help

def ofText (text : String) : Argument :=
  match text.toList with
  | ['-', '-'] => separator
  | '-' :: '-' :: cs =>
    let value :=
      match cs.dropWhile (· != '=') with
      | [] => none
      | _ :: value => some (String.ofList value)
    ofLongName (String.ofList (cs.takeWhile (· != '='))) value
  | '-' :: letters => ofLetters letters
  | _ => word

end Argument

end ExactCalculator
