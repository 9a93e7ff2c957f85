import GraphQuery.Text.Character

/-!
# Connective words in query text

Finds out whether a piece of query text has a connective of its own, so that it has to be put in
parentheses before it is combined with others. Brackets and quoted pieces hide what they enclose.
-/

namespace GraphQuery.Formula

/-- Words are runs of alphanumeric characters, underscores, points and dollar signs. -/
def isWordCharacter (c : Char) : Bool :=
  Text.isAlphanumeric c || c == '_' || c == '.' || c == '$'

/-- The single and double quotes of strings and the backward quote of names. -/
def isQuote (c : Char) : Bool :=
  c == '\x27' || c == '\x22' || c == '\x60'

def opensBracket (c : Char) : Bool :=
  c == '(' || c == '[' || c == '\x7b'

def closesBracket (c : Char) : Bool :=
  c == ')' || c == ']' || c == '\x7d'

/-- Whether a word is the given capital word, in whatever case its ASCII letters are. -/
def spells (word : List Char) (capitals : String) : Bool :=
  word.map Char.toLower == capitals.toList.map Char.toLower

/-- `NOT` after `IS` belongs to a comparison. -/
def isConnectiveWord (previous word : List Char) : Bool :=
  spells word "AND" || spells word "OR" || spells word "XOR" ||
    (spells word "NOT" && !spells previous "IS")

/-- Reads on with `depth` brackets open, perhaps inside a quotation, with the word read so far, its
last character first, and the word before it. -/
def connectiveAhead (depth : Nat) (quote : Option Char) (previous word : List Char) :
    List Char → Bool
  | [] => depth == 0 && isConnectiveWord previous word.reverse
  | c :: rest =>
      match quote with
      | some mark =>
          connectiveAhead depth (if c = mark then none else quote) previous word rest
      | none =>
          if isWordCharacter c then connectiveAhead depth none previous (c :: word) rest
          else if depth == 0 && isConnectiveWord previous word.reverse then true
          else
            let previous := if word.isEmpty then previous else word.reverse
            let quote := if isQuote c then some c else none
            let depth :=
              if opensBracket c then depth + 1 else if closesBracket c then depth - 1 else depth
            connectiveAhead depth quote previous [] rest

/-- Whether a connective stands in the text outside all brackets and quotations. -/
def hasConnective (text : String) : Bool :=
  connectiveAhead 0 none [] [] text.toList

end GraphQuery.Formula
