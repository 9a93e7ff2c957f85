import GraphQuery.Yaml.Uri

/-!
# Directives

Lines in front of a document that say which version of the language it is in and what the handles
of its tags stand for.
-/

namespace GraphQuery.Yaml

inductive Directive
  | version (major minor : Nat)
  | handle (name : String) (uri : Uri)
  deriving DecidableEq, Repr

namespace Directive

/-- Reads a number of at most nine digits. -/
def readNumber? (cursor : Cursor) : Option (Nat × Cursor) :=
  let digits := cursor.rest.takeWhile Char.isDigit
  if digits.isEmpty || 9 < digits.length then none
  else
    some (digits.foldl (fun value c => 10 * value + (c.toNat - '0'.toNat)) 0,
      cursor.past Char.isDigit)

def readVersion? (cursor : Cursor) : Option (Directive × Cursor) := do
  let (major, cursor) ← readNumber? cursor
  guard (cursor.rest.head? = some '.')
  let (minor, cursor) ← readNumber? (cursor.forward 1)
  return (version major minor, cursor)

/-- A handle is an exclamation mark or has one at either end. -/
def readHandle? (cursor : Cursor) : Option (Directive × Cursor) := do
  guard (cursor.rest.head? = some '!')
  let word := (cursor.forward 1).rest.takeWhile isWordChar
  let after := (cursor.forward 1).past isWordChar
  let (name, after) ←
    if after.rest.head? = some '!' then
      some ("!" ++ String.ofList word ++ "!", after.forward 1)
    else if word.isEmpty then some ("!", after)
    else none
  guard (after.rest.head?.any isBlank)
  let (uri, after) ← Uri.readSome? Uri.isWideUriChar (after.past isBlank)
  guard (endsWord after.rest)
  return (handle name uri, after)

/-- The rest of a line with nothing but a comment in it. -/
def readLineEnd? (cursor : Cursor) : Option Cursor :=
  let cursor := cursor.past isBlank
  let cursor := if cursor.rest.head? = some '#' then cursor.past fun c => !isBreak c else cursor
  if cursor.rest.head?.all isBreak then some (cursor.forward 1) else none

/-- The directive whose percent sign is at the cursor, and the line after it. -/
def read? (cursor : Cursor) : Option (Directive × Cursor) := do
  let inside := cursor.forward 1
  let after := inside.past isWordChar
  guard (endsWord after.rest)
  let (directive, after) ← match String.ofList (inside.rest.takeWhile isWordChar) with
    | "YAML" => readVersion? (after.past isBlank)
    | "TAG" => readHandle? (after.past isBlank)
    | _ => none
  return (directive, ← readLineEnd? after)

end Directive

end GraphQuery.Yaml
