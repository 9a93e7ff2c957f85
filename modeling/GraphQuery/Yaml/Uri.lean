import GraphQuery.Yaml.Cursor

/-!
# URIs

The texts that tags are made of. A character may be written as its UTF-8 bytes, each a percent sign
and two hexadecimal digits.
-/

namespace GraphQuery.Yaml

/-- The characters of a URI. Where bytes were written that encode no character, there is none. -/
abbrev Uri := List (Option Char)

namespace Uri

def ofString (text : String) : Uri :=
  text.toList.map some

def text? (uri : Uri) : Option String :=
  (uri.mapM id).map String.ofList

/-! ## Bytes -/

/-- A character of which some bytes are still to come. -/
structure Partial where
  /-- How many bytes the character takes up. -/
  width : Nat
  missing : Nat
  value : Nat
  deriving DecidableEq, Repr

/-- The first byte of a character. -/
def Partial.ofLead? (byte : Nat) : Option Partial :=
  if byte < 0x80 then some ⟨1, 0, byte⟩
  else if byte < 0xC0 then none
  else if byte < 0xE0 then some ⟨2, 1, byte - 0xC0⟩
  else if byte < 0xF0 then some ⟨3, 2, byte - 0xE0⟩
  else if byte < 0xF8 then some ⟨4, 3, byte - 0xF0⟩
  else none

/-- A byte after the first. -/
def Partial.add? (begun : Partial) (byte : Nat) : Option Partial :=
  if 0x80 ≤ byte ∧ byte < 0xC0 then
    some ⟨begun.width, begun.missing - 1, 64 * begun.value + (byte - 0x80)⟩
  else none

/-- The character of which all bytes are there, unless it has a shorter form. -/
def Partial.char? (begun : Partial) : Option Char :=
  (codePoint? begun.value).filter fun c => c.utf8Size = begun.width

/-- Decodes on after the characters in `done`, the last of them first. -/
def decodeFrom (done : Uri) (begun : Option Partial) : List Char → Option Uri
  | [] => if begun.isNone then some done.reverse else none
  | '%' :: high :: low :: rest => do
      let byte := 16 * (← hexDigit? high) + (← hexDigit? low)
      let next ← match begun with
        | some begun => begun.add? byte
        | none => Partial.ofLead? byte
      if next.missing = 0 then decodeFrom (next.char? :: done) none rest
      else decodeFrom done (some next) rest
  | c :: rest => if c = '%' || begun.isSome then none else decodeFrom (some c :: done) none rest

/-- What a URI stands for. It ends at a null character. -/
def decode? (text : List Char) : Option Uri :=
  (decodeFrom [] none text).map fun uri => uri.takeWhile fun c => c ≠ some '\x00'

/-! ## Where URIs end -/

def isUriChar (c : Char) : Bool :=
  isWordChar c || ";/?:@&=+$.%!~*'()".toList.contains c

/-- Where nothing of a flow collection can follow, its marks are part of a URI. -/
def isWideUriChar (c : Char) : Bool :=
  isUriChar c || c = ',' || c = '[' || c = ']'

/-- Reads the URI at a cursor, which may be empty. -/
def read? (belongs : Char → Bool) (cursor : Cursor) : Option (Uri × Cursor) := do
  return (← decode? (cursor.rest.takeWhile belongs), cursor.past belongs)

/-- Reads the URI at a cursor, of at least one character. -/
def readSome? (belongs : Char → Bool) (cursor : Cursor) : Option (Uri × Cursor) :=
  if cursor.rest.head?.any belongs then read? belongs cursor else none

end Uri

end GraphQuery.Yaml
