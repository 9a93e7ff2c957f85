import GraphQuery.Settings.Basic
import GraphQuery.Yaml.Schema

/-!
# Settings from a document

Reads settings that are written down as YAML. A setting that is not mentioned keeps its default.
-/

namespace GraphQuery.Settings

/-- Reads the settings that the root of a document lists. -/
def fromNode (node : Yaml.Node) : Yaml.Reading Settings := do
  let standard : Settings := {}
  let fields ←
    Yaml.Reading.fields ["max_nesting_depth", "log_compiled_queries", "catalog_path"] node
  let maxDepth ← Yaml.Reading.fieldOr fields "max_nesting_depth" standard.maxDepth
    (Yaml.Reading.scalar (Yaml.Scalar.naturalBelow? numberBound))
  let logQueries ← Yaml.Reading.fieldOr fields "log_compiled_queries" standard.logQueries
    (Yaml.Reading.scalar Yaml.Scalar.flag?)
  let catalogPath ← Yaml.Reading.fieldOr fields "catalog_path" standard.catalogPath
    (Yaml.Reading.scalar Yaml.Scalar.optionalText?)
  return { maxDepth, logQueries, catalogPath }

def read? (text : String) : Option Settings := do
  let document ← Yaml.Document.ofText? text
  (fromNode document.root).run? document

def ofText (text : String) : Except Error Settings :=
  match read? text with
  | some settings => settings.validate
  | none => .error (.malformedDocument text)

def ofFile (read : FileReader) (path : String) : Except Error Settings :=
  match read path with
  | .ok text => ofText text
  | .error reason => .error (.unreadable reason)

end GraphQuery.Settings
