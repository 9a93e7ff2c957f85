import GraphQuery.Yaml.Document

/-!
# Reading documents

What it takes to read a value from the nodes of a document: where a node is only referred to, the
node that is meant is looked up. That is done no more than a hundred times for each event of the
document, which keeps nodes that refer to each other from growing out of proportion.
-/

namespace GraphQuery.Yaml

/-- Reads from the nodes of a document, and may follow so many references more. -/
abbrev Reading := ReaderT Document (StateT Nat Option)

namespace Reading

def failure {α : Type} : Reading α := fun _ _ => none

def ofOption {α : Type} (value : Option α) : Reading α := fun _ left => value.map (·, left)

def run? {α : Type} (reading : Reading α) (document : Document) : Option α :=
  (reading document (100 * document.size)).map Prod.fst

/-- The node that is meant where `node` stands. -/
def follow (node : Node) : Reading Node := fun document left =>
  match node, left with
  | .reference _, 0 => none
  | .reference number, left + 1 => (document.node? number).map (·, left)
  | node, left => some (node, left)

end Reading

end GraphQuery.Yaml
