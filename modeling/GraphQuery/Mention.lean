import GraphQuery.Fault
import GraphQuery.Identifier

/-!
# Mentions

A use of a variable as a call writes it: an identifier, and what the use adds to it.
-/

namespace GraphQuery

structure Mention where
  identifier : Identifier
  /-- Becomes the variable's alias if it has an expression, else its expression. -/
  qualifier : Option String := none
  name : Option String := none
  label : Option String := none
  properties : OrderedMap String Identifier := ∅
  /-- Query text in place of a property map. -/
  propertiesText : Option String := none
  /-- Of a relationship, how many steps it may take. -/
  length : Option String := none
  /-- The destination to bind the variable to. -/
  bind : Option Token := none

/-- A part of a mention that can be added to it. -/
inductive Detail
  | name (text : String)
  | label (text : String)
  | length (text : String)
  | properties (entries : List (String × Identifier))
  | propertiesText (text : String)

namespace Mention

/-- A later detail replaces an earlier one of its kind, while properties add up. -/
def add (mention : Mention) : Detail → Mention
  | .name text => { mention with name := some text }
  | .label text => { mention with label := some text }
  | .length text => { mention with length := some text }
  | .properties entries => { mention with properties := mention.properties.insertAll entries }
  | .propertiesText text => { mention with propertiesText := some text }

def addAll (mention : Mention) (details : List Detail) : Mention :=
  details.foldl add mention

/-- A mention with a qualifier. An identifier that is query text has an expression already, so it
can be given a qualifier or a name, but not both. -/
def qualified (identifier : Identifier) (qualifier : String) (details : List Detail) :
    Except Fault Mention :=
  let mention : Mention := addAll { identifier } details
  match identifier.text?, mention.name with
  | some text, some _ => .error (.duplicateQualification text qualifier)
  | _, _ => .ok { mention with qualifier := some qualifier }

end Mention

end GraphQuery
