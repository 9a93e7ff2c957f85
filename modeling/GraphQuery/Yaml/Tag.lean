import GraphQuery.Yaml.Uri

/-!
# Tags

The marks that say what kind of value a node is. A tag is written in full or as a handle, which
stands for the beginning of it, and the rest.
-/

namespace GraphQuery.Yaml

structure Tag where
  /-- Nothing in front of a tag that is written in full. -/
  handle : String
  suffix : Uri
  deriving DecidableEq, Repr

namespace Tag

/-- The tag of a lone exclamation mark. -/
def lone : Tag := ⟨"", Uri.ofString "!"⟩

/-- Handles that stand for something without being declared. -/
def standardHandles : List (String × Uri) :=
  [("!", Uri.ofString "!"), ("!!", Uri.ofString "tag:yaml.org,2002:")]

/-- The tag in full. -/
def resolve? (handles : List (String × Uri)) (tag : Tag) : Option Uri :=
  if tag.handle = "" then some tag.suffix
  else ((handles ++ standardHandles).lookup tag.handle).map (· ++ tag.suffix)

/-! ## How tags are written -/

def readVerbatim? (cursor : Cursor) : Option (Tag × Cursor) := do
  let (uri, after) ← Uri.readSome? Uri.isWideUriChar (cursor.forward 2)
  match after.rest with
  | '>' :: _ => return (⟨"", uri⟩, after.forward 1)
  | _ => none

/-- A word between exclamation marks is a handle. Otherwise the first mark is, and the word belongs
to the rest. -/
def readShorthand? (cursor : Cursor) : Option (Tag × Cursor) := do
  let word := (cursor.forward 1).rest.takeWhile isWordChar
  let after := (cursor.forward 1).past isWordChar
  match after.rest with
  | '!' :: _ =>
      let (suffix, after) ← Uri.readSome? Uri.isUriChar (after.forward 1)
      return (⟨"!" ++ String.ofList word ++ "!", suffix⟩, after)
  | _ =>
      let (suffix, after) ← Uri.read? Uri.isUriChar after
      let suffix := word.map some ++ suffix
      return (if suffix.isEmpty then lone else ⟨"!", suffix⟩, after)

/-- The tag at the cursor, and nothing but the end of the word or, in a flow collection, a comma
after it. -/
def read? (inFlow : Bool) (cursor : Cursor) : Option (Tag × Cursor) := do
  let (tag, after) ← match cursor.rest with
    | _ :: '<' :: _ => readVerbatim? cursor
    | _ => readShorthand? cursor
  guard (endsWord after.rest || (inFlow && after.rest.head? = some ','))
  return (tag, after)

end Tag

end GraphQuery.Yaml
