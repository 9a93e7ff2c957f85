import GraphQuery.Yaml.Token

/-!
# Events

What happens as a document is read from beginning to end: collections open and close, and nodes
without parts come up between.
-/

namespace GraphQuery.Yaml

structure Scalar where
  style : ScalarStyle
  /-- The tag in full. -/
  tag : Option Uri
  text : String
  deriving DecidableEq, Repr, Inhabited

inductive Event
  /-- The name of an anchor in place of a node. -/
  | reference (name : String)
  | scalar (anchor : Option String) (scalar : Scalar)
  | sequence (anchor : Option String)
  | mapping (anchor : Option String)
  | close
  deriving DecidableEq, Repr

end GraphQuery.Yaml
