import GraphQuery.Yaml.Event

/-!
# Nodes

The tree that a document stands for. A node that is referred to by the name of an anchor is not
copied, so a node may refer to one that it is part of.
-/

namespace GraphQuery.Yaml

inductive Node
  | scalar (scalar : Scalar)
  | sequence (items : List Node)
  /-- Keys may be any nodes, and may be repeated. -/
  | mapping (entries : List (Node × Node))
  /-- Another node of the document, by its number. -/
  | reference (number : Nat)
  deriving Inhabited, Repr

namespace Node

/-- What stands where nothing is written. -/
def absent : Node := .scalar ⟨.plain, none, ""⟩

/-- Keys with their values, from nodes of which the last comes first. -/
def pairsFrom (entries : List (Node × Node)) : List Node → List (Node × Node)
  | value :: key :: rest => pairsFrom ((key, value) :: entries) rest
  | _ => entries

end Node

end GraphQuery.Yaml
