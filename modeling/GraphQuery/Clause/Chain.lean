import GraphQuery.OrderedMap
import GraphQuery.Pattern
import GraphQuery.Text.Line

/-!
# Chains

Patterns with their variables resolved, and their text.
-/

namespace GraphQuery

/-- A node or relationship of a chain. -/
structure Element where
  reference : Option String := none
  label : Option String := none
  length : Option String := none
  properties : OrderedMap String String := ∅
  propertiesText : Option String := none

structure Link where
  direction : Direction
  relationship : Element
  node : Element

structure Chain where
  path : Option String := none
  start : Element
  links : List Link := []

/-! ## Text -/

/-- Puts `mark` in front of a text that does not begin with it. -/
def withMark (mark : Char) (text : String) : String :=
  if text.toList.head? = some mark then text else String.singleton mark ++ text

namespace Element

def referenceText (element : Element) : String := element.reference.getD ""

def labelText (element : Element) : String :=
  match element.label with
  | none => ""
  | some label => if label = "" then "" else withMark ':' label

def lengthText (element : Element) : String :=
  match element.length with
  | none => ""
  | some length => withMark '*' length

/-- The text given for the properties, else the map of those there are. -/
def propertiesText? (element : Element) : Option String :=
  match element.propertiesText with
  | some text => some text
  | none =>
      if element.properties.isEmpty then none
      else some ("\x7b" ++ Text.joinWith ", " (element.properties.entries.map fun entry =>
        entry.1 ++ ": " ++ entry.2) ++ "\x7d")

/-- What stands between the brackets, after `head`: a space parts the properties from it. -/
def withProperties (element : Element) (head : String) : String :=
  match element.propertiesText? with
  | none => head
  | some text => if head = "" then text else head ++ " " ++ text

def nodeText (element : Element) : String :=
  "(" ++ element.withProperties (element.referenceText ++ element.labelText) ++ ")"

/-- Nothing is written between the dashes of a relationship of which nothing is said. -/
def relationshipText (element : Element) (direction : Direction) : String :=
  let body := element.withProperties
    (element.referenceText ++ element.labelText ++ element.lengthText)
  let line := if body = "" then "--" else "-[" ++ body ++ "]-"
  match direction with
  | .outgoing => line ++ ">"
  | .incoming => "<" ++ line
  | .undirected => line

end Element

def Link.text (link : Link) : String :=
  link.relationship.relationshipText link.direction ++ link.node.nodeText

def Chain.text (chain : Chain) : String :=
  let walk := chain.start.nodeText ++ Text.concat (chain.links.map Link.text)
  match chain.path with
  | some path => path ++ " = " ++ walk
  | none => walk

end GraphQuery
