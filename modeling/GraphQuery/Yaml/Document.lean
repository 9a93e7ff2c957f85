import GraphQuery.OrderedMap
import GraphQuery.Yaml.Grammar
import GraphQuery.Yaml.Node
import GraphQuery.Yaml.Tokens

/-!
# Documents

The nodes of a document, from its events. Nodes with anchors are numbered, and a reference stands
for the number that its name has at that point.
-/

namespace GraphQuery.Yaml

structure Document where
  root : Node
  /-- The nodes with anchors and their numbers, in the order in which they begin. -/
  anchored : Array (Nat × Node)
  /-- How many events the document has. -/
  size : Nat

/-- Of several nodes with one number, the last is meant. -/
def Document.node? (document : Document) (number : Nat) : Option Node :=
  (document.anchored.findRev? fun entry => entry.1 = number).map Prod.snd

/-! ## Composing nodes -/

/-- A collection that is still open. -/
structure Frame where
  isMapping : Bool
  /-- Where its own node goes among those with anchors. -/
  position : Option Nat
  /-- The nodes in it so far, the last first. -/
  nodes : List Node := []

def Frame.node (frame : Frame) : Node :=
  if frame.isMapping then .mapping (Node.pairsFrom [] frame.nodes)
  else .sequence frame.nodes.reverse

/-- A document of which some events have been read. -/
structure Composition where
  root : Option Node := none
  /-- The open collections, the innermost first. -/
  frames : List Frame := []
  numbers : OrderedMap String Nat := ∅
  anchored : Array (Nat × Node) := #[]

namespace Composition

/-- Numbers a node, if it has an anchor. A name that was used before is given a new number, which
the next new name will share. -/
def declare (composition : Composition) (anchor : Option String) (node : Node) : Composition :=
  match anchor with
  | none => composition
  | some name =>
      let number := composition.numbers.size
      { composition with
        numbers := composition.numbers.insert name number
        anchored := composition.anchored.push (number, node) }

/-- Puts a node where it belongs. -/
def place (composition : Composition) (node : Node) : Composition :=
  match composition.frames with
  | [] => { composition with root := some node }
  | frame :: outer =>
      { composition with frames := { frame with nodes := node :: frame.nodes } :: outer }

def openFrame (composition : Composition) (isMapping : Bool) (anchor : Option String) :
    Composition :=
  let position := anchor.map fun _ => composition.anchored.size
  let composition := composition.declare anchor Node.absent
  { composition with frames := { isMapping, position } :: composition.frames }

/-- Writes a node to its place among those with anchors. -/
def fill (composition : Composition) (position : Option Nat) (node : Node) : Composition :=
  match position with
  | none => composition
  | some position =>
      { composition with
        anchored := composition.anchored.modify position fun entry => (entry.1, node) }

def add (composition : Composition) : Event → Option Composition
  | .reference name => do
      return composition.place (.reference (← composition.numbers.get? name))
  | .scalar anchor scalar =>
      some ((composition.declare anchor (.scalar scalar)).place (.scalar scalar))
  | .sequence anchor => some (composition.openFrame false anchor)
  | .mapping anchor => some (composition.openFrame true anchor)
  | .close =>
      match composition.frames with
      | [] => none
      | frame :: outer =>
          some (({ composition with frames := outer }.fill frame.position frame.node).place
            frame.node)

end Composition

namespace Document

def ofEvents? (events : List Event) : Option Document := do
  let composition ← events.foldlM Composition.add {}
  return ⟨← composition.root, composition.anchored, events.length⟩

/-- The only document in a text. -/
def ofText? (text : String) : Option Document := do
  ofEvents? (← events? (← tokens? text.toList))

end Document

end GraphQuery.Yaml
