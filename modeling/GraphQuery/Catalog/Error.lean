import GraphQuery.File

/-!
# Catalog errors

What can go wrong when a catalog is filled or asked.
-/

namespace GraphQuery.Catalog

inductive Error
  | unknownType (typeName : String)
  | unknownField (typeName field : String)
  | duplicateType (typeName : String)
  | unreadable (path : String) (reason : ReadFailure)
  /-- The table's text is no type table. -/
  | malformedTable
  deriving DecidableEq, Repr

def Error.message : Error → String
  | .unknownType typeName => "No type descriptor registered for `" ++ typeName ++ "`"
  | .unknownField typeName field =>
      "Field `" ++ field ++ "` of `" ++ typeName ++ "` has no mapped property"
  | .duplicateType typeName =>
      "Type `" ++ typeName ++ "` is already registered with a different descriptor"
  | .unreadable path reason =>
      "Failed to read type catalog: " ++ reason.message ++ "\n  Context: " ++ path
  | .malformedTable => "Failed to parse type catalog"

end GraphQuery.Catalog
