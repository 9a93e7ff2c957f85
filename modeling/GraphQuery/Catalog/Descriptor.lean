import GraphQuery.Catalog.Error
import GraphQuery.OrderedMap

/-!
# Type descriptors

How a domain type maps onto the graph: as nodes or relationships with a label, each field of the
type stored under a property.
-/

namespace GraphQuery

inductive Category
  | node
  | relationship
  deriving DecidableEq, Repr

def Category.name : Category → String
  | .node => "node"
  | .relationship => "relationship"

def Category.ofName? : String → Option Category
  | "node" => some .node
  | "relationship" => some .relationship
  | _ => none

structure Descriptor where
  typeName : String
  category : Category
  label : String
  /-- Property of each field. -/
  properties : OrderedMap String String := ∅

namespace Descriptor

def withProperty (descriptor : Descriptor) (field property : String) : Descriptor :=
  { descriptor with properties := descriptor.properties.insert field property }

def property (descriptor : Descriptor) (field : String) : Except Catalog.Error String :=
  match descriptor.properties.get? field with
  | some property => .ok property
  | none => .error (.unknownField descriptor.typeName field)

/-- Two descriptors say the same when they differ at most in the order of their properties. -/
def agrees (left right : Descriptor) : Bool :=
  left.typeName = right.typeName && left.category = right.category && left.label = right.label &&
    left.properties.sameEntries right.properties

end Descriptor

end GraphQuery
