import GraphQuery.Yaml.Cursor

/-!
# Anchor names

The names by which a node is marked, and referred to from elsewhere in its document.
-/

namespace GraphQuery.Yaml

/-- What may stand directly after a name. -/
def endsAnchor (rest : List Char) : Bool :=
  endsWord rest || rest.head?.any fun c => ['?', ':', ',', ']', '\x7d', '%', '@', '\x60'].contains c

/-- The name behind the mark at the cursor. -/
def anchorName? (cursor : Cursor) : Option (String × Cursor) :=
  let inside := cursor.forward 1
  let name := inside.rest.takeWhile isWordChar
  let after := inside.past isWordChar
  if name.isEmpty || !endsAnchor after.rest then none else some (String.ofList name, after)

end GraphQuery.Yaml
