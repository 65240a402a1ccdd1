/-!
# Blank characters

The characters that separate symbols without meaning anything, and trimming:

* `isBlank`: the Unicode property White_Space, given by its code point ranges;
* `trimStart`, `trimEnd`, `trim`: characters without the blanks at their ends;
* `trimmedEnd`: the same for the end of a string.
-/

namespace ExactCalculator.Text

/-- The code point ranges, both ends included, of the Unicode property White_Space. -/
def blankRanges : List (Nat × Nat) :=
  [(0x0009, 0x000D), (0x0020, 0x0020), (0x0085, 0x0085), (0x00A0, 0x00A0), (0x1680, 0x1680),
   (0x2000, 0x200A), (0x2028, 0x2029), (0x202F, 0x202F), (0x205F, 0x205F), (0x3000, 0x3000)]

def isBlank (c : Char) : Bool :=
  blankRanges.any fun r => r.1 ≤ c.toNat && c.toNat ≤ r.2

/-! ## Trimming -/

def trimStart (cs : List Char) : List Char := cs.dropWhile isBlank

def trimEnd (cs : List Char) : List Char := (cs.reverse.dropWhile isBlank).reverse

def trim (cs : List Char) : List Char := trimEnd (trimStart cs)

def trimmedEnd (text : String) : String := String.ofList (trimEnd text.toList)

end ExactCalculator.Text
