import GraphQuery.Catalog.Basic
import GraphQuery.Settings.Basic
import GraphQuery.Yaml.Schema

/-!
# Type tables

Catalogs written down as YAML: a mapping with a list of types, each with its name, category, label
and properties.
-/

namespace GraphQuery.Catalog

def descriptor (node : Yaml.Node) : Yaml.Reading Descriptor := do
  let fields ← Yaml.Reading.fields ["type_name", "category", "label", "properties"] node
  let typeName ← Yaml.Reading.field fields "type_name" Yaml.Reading.text
  let category ← Yaml.Reading.field fields "category"
    (Yaml.Reading.scalar fun scalar => scalar.choice?.bind Category.ofName?)
  let label ← Yaml.Reading.field fields "label" Yaml.Reading.text
  let properties ← Yaml.Reading.fieldOr fields "properties" ∅ Yaml.Reading.texts
  return { typeName, category, label, properties }

/-- Reads the types that the root of a table lists. -/
def tableTypes (node : Yaml.Node) : Yaml.Reading (List Descriptor) := do
  let fields ← Yaml.Reading.fields ["types"] node
  Yaml.Reading.fieldOr fields "types" [] (Yaml.Reading.items descriptor)

def types? (text : String) : Option (List Descriptor) := do
  let document ← Yaml.Document.ofText? text
  (tableTypes document.root).run? document

/-- The descriptors in a table, of which several may have one name. -/
def readTable (text : String) : Except Error (List Descriptor) :=
  match types? text with
  | some descriptors => .ok descriptors
  | none => .error .malformedTable

def ofText (text : String) : Except Error Catalog := do
  ofList (← readTable text)

def ofFile (read : FileReader) (path : String) : Except Error Catalog :=
  match read path with
  | .ok text => ofText text
  | .error reason => .error (.unreadable path reason)

/-- The catalog at the path that is set, or an empty one. -/
def ofSettings (read : FileReader) (settings : Settings) : Except Error Catalog :=
  match settings.catalogPath with
  | some path => ofFile read path
  | none => .ok {}

end GraphQuery.Catalog
