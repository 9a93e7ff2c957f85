import GraphQuery.Catalog.Descriptor

/-!
# Catalogs

Descriptors by type name. A type keeps the descriptor it was first given.
-/

namespace GraphQuery

structure Catalog where
  types : OrderedMap String Descriptor := ∅

namespace Catalog

instance : Inhabited Catalog := ⟨{}⟩

def size (catalog : Catalog) : Nat := catalog.types.size

def isEmpty (catalog : Catalog) : Bool := catalog.types.isEmpty

def contains (catalog : Catalog) (typeName : String) : Bool := catalog.types.contains typeName

def describe (catalog : Catalog) (typeName : String) : Except Error Descriptor :=
  match catalog.types.get? typeName with
  | some descriptor => .ok descriptor
  | none => .error (.unknownType typeName)

/-- Adds a descriptor. Giving one again that agrees with the first changes nothing. -/
def insert (catalog : Catalog) (descriptor : Descriptor) : Except Error Catalog :=
  match catalog.types.get? descriptor.typeName with
  | none => .ok ⟨catalog.types.insert descriptor.typeName descriptor⟩
  | some first =>
      if first.agrees descriptor then .ok catalog else .error (.duplicateType descriptor.typeName)

/-- Adds the descriptors in turn up to the first that cannot be added. -/
def insertAll (catalog : Catalog) : List Descriptor → Except Error Catalog
  | [] => .ok catalog
  | descriptor :: rest =>
      match catalog.insert descriptor with
      | .ok catalog => catalog.insertAll rest
      | .error error => .error error

def ofList (descriptors : List Descriptor) : Except Error Catalog := insertAll {} descriptors

end Catalog

end GraphQuery
