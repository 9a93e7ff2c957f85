import GraphQuery.Yaml.Directive
import GraphQuery.Yaml.Tag

/-!
# Tokens

The words and marks of a YAML text. Where indentation opens or closes a collection, a token says
so, which leaves the grouping of tokens a matter of their order alone.
-/

namespace GraphQuery.Yaml

/-- How a scalar is written, as far as that can decide what it means. -/
inductive ScalarStyle
  | plain
  | literal
  | other
  deriving DecidableEq, Repr, Inhabited

inductive Token
  | directive (directive : Directive)
  | documentStart
  | documentEnd
  | blockSequence
  | blockMapping
  | blockEnd
  | flowSequence
  | flowSequenceEnd
  | flowMapping
  | flowMappingEnd
  /-- The dash before an item. -/
  | item
  /-- The comma between the parts of a flow collection. -/
  | comma
  | key
  | value
  | anchor (name : String)
  /-- The name of an anchor in place of a node. -/
  | reference (name : String)
  | tag (tag : Tag)
  | scalar (style : ScalarStyle) (text : String)
  deriving DecidableEq, Repr

end GraphQuery.Yaml
