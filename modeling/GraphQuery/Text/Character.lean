import GraphQuery.Text.Alphabetic
import GraphQuery.Text.Numeric

/-!
# Character classes

The classes of characters that decide where a name or a word ends.
-/

namespace GraphQuery.Text

/-- Whether a code point lies in one of the ranges, which are in increasing order. -/
def inRanges : List (Nat × Nat) → Nat → Bool
  | [], _ => false
  | (low, high) :: rest, n =>
      if n < low then false else if n ≤ high then true else inRanges rest n

def isAlphabetic (c : Char) : Bool :=
  inRanges alphabeticRanges c.toNat

def isNumeric (c : Char) : Bool :=
  inRanges numericRanges c.toNat

def isAlphanumeric (c : Char) : Bool :=
  isAlphabetic c || isNumeric c

/-- A name that needs no quoting: a letter or underscore, then letters, numerals and underscores. -/
def isPlainName (text : String) : Bool :=
  match text.toList with
  | [] => false
  | first :: rest =>
      (isAlphabetic first || first == '_') && rest.all fun c => isAlphanumeric c || c == '_'

end GraphQuery.Text
