/-!
# Characters and places of a YAML text

Which characters a text may hold, which of them part words and lines, and how a place in the text
moves on.
-/

namespace GraphQuery.Yaml

/-! ## Characters -/

def permittedRanges : List (Nat × Nat) :=
  [(0x9, 0xA), (0xD, 0xD), (0x20, 0x7E), (0x85, 0x85), (0xA0, 0xD7FF), (0xE000, 0xFFFD),
   (0x10000, 0x10FFFF)]

/-- Control characters other than tabs and line breaks may only be written as escapes. -/
def isPermitted (c : Char) : Bool :=
  permittedRanges.any fun range => range.1 ≤ c.toNat && c.toNat ≤ range.2

/-- Normalizes the breaks of a text after characters already done, the last of them first. -/
def normalizeFrom (done : List Char) : List Char → List Char
  | [] => done.reverse
  | '\r' :: '\n' :: rest => normalizeFrom ('\n' :: done) rest
  | c :: rest => normalizeFrom ((if c = '\r' || c = '\x85' then '\n' else c) :: done) rest

/-- Carriage returns and next-line characters are line breaks like any other. -/
def normalizeBreaks (text : List Char) : List Char :=
  normalizeFrom [] text

/-- The breaks of a normalized text. The line and paragraph separators are never folded. -/
def isBreak (c : Char) : Bool :=
  c = '\n' || c = '\u2028' || c = '\u2029'

def isBlank (c : Char) : Bool :=
  c = ' ' || c = '\t'

/-- The characters of names. -/
def isWordChar (c : Char) : Bool :=
  c.isAlphanum || c = '_' || c = '-'

def hexDigit? (c : Char) : Option Nat :=
  if '0' ≤ c ∧ c ≤ '9' then some (c.toNat - '0'.toNat)
  else if 'a' ≤ c ∧ c ≤ 'f' then some (c.toNat - 'a'.toNat + 10)
  else if 'A' ≤ c ∧ c ≤ 'F' then some (c.toNat - 'A'.toNat + 10)
  else none

/-- No character has a code point among the surrogates or above the last. -/
def codePoint? (value : Nat) : Option Char :=
  if value.isValidChar then some (Char.ofNat value) else none

/-- Whether a word ends before this rest of the text. -/
def endsWord (rest : List Char) : Bool :=
  rest.head?.all fun c => isBlank c || isBreak c

/-- The marks that stand alone between documents. -/
def isMarker (rest : List Char) : Bool :=
  match rest with
  | '-' :: '-' :: '-' :: rest | '.' :: '.' :: '.' :: rest => endsWord rest
  | _ => false

/-! ## Places -/

structure Place where
  line : Nat := 0
  /-- How many characters of the line stand before the place. -/
  column : Nat := 0
  /-- How many bytes those characters take up. -/
  bytes : Nat := 0
  deriving DecidableEq, Repr

def Place.after (place : Place) (c : Char) : Place :=
  if isBreak c then ⟨place.line + 1, 0, 0⟩
  else ⟨place.line, place.column + 1, place.bytes + c.utf8Size⟩

/-- A place, with the text from there on. -/
structure Cursor where
  place : Place := {}
  rest : List Char

/-- The cursor some characters further on. -/
def Cursor.forward (cursor : Cursor) : Nat → Cursor
  | 0 => cursor
  | count + 1 =>
      match cursor.rest with
      | [] => cursor
      | c :: rest => forward ⟨cursor.place.after c, rest⟩ count

/-- The cursor after the characters for which `passes` holds. -/
def Cursor.past (passes : Char → Bool) (cursor : Cursor) : Cursor :=
  cursor.forward (cursor.rest.takeWhile passes).length

def Cursor.atMarker (cursor : Cursor) : Bool :=
  cursor.place.column = 0 && isMarker cursor.rest

end GraphQuery.Yaml
