import ExactCalculator.CommandLine.Argument

/-!
# Commands

What all arguments ask for. Options are read one by one; the first argument that is no option
begins the expression, and everything after it or after `--` belongs to the expression.
-/

namespace ExactCalculator

structure Options where
  /-- The number of digits asked for by `--precision`. -/
  precision : Option Nat
  showRpn : Bool
  /-- The words of the expression. -/
  words : List String
  deriving DecidableEq, Repr

inductive Command where
  /-- The arguments are refused. -/
  | refused
  | version
  | help
  | evaluate (options : Options)
  deriving DecidableEq, Repr

/-- The greatest number of digits that an option may ask for, before it is brought into
bounds. -/
def maxRequest : Nat := UInt32.size - 1

/-- A number of digits, with or without a sign. -/
def readRequest (text : String) : Option Nat :=
  let (negative, digits) :=
    match text.toList with
    | '-' :: digits => (true, digits)
    | '+' :: digits => (false, digits)
    | digits => (false, digits)
  let n := Nat.ofDigitChars 10 digits 0
  if digits.isEmpty || !digits.all Char.isDigit || maxRequest < n || (negative && n != 0) then none
  else some n

namespace Options

def initial : Options := ⟨none, false, []⟩

/-- A precision may be asked for once. -/
def withPrecision (o : Options) (text : String) : Option Options :=
  match o.precision, readRequest text with
  | none, some n => some { o with precision := some n }
  | _, _ => none

/-- Steps may be asked for once. -/
def withRpn (o : Options) : Option Options :=
  if o.showRpn then none else some { o with showRpn := true }

end Options

namespace Command

/-- Reads the arguments that follow those of which `o` holds the options. -/
def read (o : Options) : List String → Command
  | [] => evaluate o
  | text :: texts =>
    match Argument.ofText text with
    | .separator => evaluate { o with words := texts }
    | .word => evaluate { o with words := text :: texts }
    | .verbose => read o texts
    | .version => version
    | .help => help
    | .unwantedValue => refused
    | .rpn =>
      match o.withRpn with
      | some o => read o texts
      | none => refused
    | .precision (some value) =>
      match o.withPrecision value with
      | some o => read o texts
      | none => refused
    | .precision none =>
      match texts with
      | [] => refused
      | value :: texts =>
        match o.withPrecision value with
        | some o => read o texts
        | none => refused

/-- What the arguments ask for. The environment gives the precision if no argument does. -/
def ofArguments (arguments : List String) (environment : Option String) : Command :=
  match read .initial arguments with
  | evaluate o =>
    match o.precision, environment with
    | none, some text =>
      match o.withPrecision text with
      | some o => evaluate o
      | none => refused
    | _, _ => evaluate o
  | command => command

end Command

end ExactCalculator
