import ExactCalculator.Token

/-!
# Keys

The keys of the calculator panel and their labels: keys that write into the entry, and keys
that act on the panel.
-/

namespace ExactCalculator

inductive Key where
  | digit (d : Fin 10)
  | point
  | opening
  | closing
  | operator (op : BinaryOperator)
  /-- Removes the last character of the entry. -/
  | delete
  | equals
  /-- Empties the entry. -/
  | clear
  /-- Empties result, error and steps. -/
  | clearResults
  /-- Resets the panel. -/
  | clearAll
  deriving DecidableEq, Repr

namespace Key

def label : Key → String
  | digit d => toString d.val
  | point => "."
  | opening => "("
  | closing => ")"
  | operator op => (Operator.binary op).symbol
  | delete => "DEL"
  | equals => "="
  | clear => "C"
  | clearResults => "CLR"
  | clearAll => "AC"

/-- Every key of the panel. -/
def all : List Key :=
  List.ofFn digit
    ++ [point, opening, closing, operator .add, operator .sub, operator .mul, operator .div,
        delete, equals, clear, clearResults, clearAll]

/-- The key with a given label. -/
def ofLabel? (label : String) : Option Key := all.find? (·.label == label)

/-- Labels tell the keys apart. -/
theorem ofLabel?_label (key : Key) : ofLabel? key.label = some key := by
  cases key with
  | digit d => revert d; decide
  | operator op => cases op <;> decide
  | _ => decide

end Key

end ExactCalculator
