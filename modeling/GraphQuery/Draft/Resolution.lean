import GraphQuery.Clause.Basic
import GraphQuery.Pattern
import GraphQuery.Scope.Basic

/-!
# Resolution

Turns what a call mentions into query text, against the variables known so far. What has been
resolved before something fails stays resolved.
-/

namespace GraphQuery

/-- What is known at a point of a query: its variables, and the parameters mentioned so far. -/
structure Vocabulary where
  scope : Scope := {}
  parameters : OrderedMap String Value := ∅
  deriving Inhabited

abbrev Resolve := EStateM Fault Vocabulary

/-- A variable as a mention has left it. -/
structure Use where
  found : Variable
  created : Bool
  qualified : Option Qualified

/-- Labels are written only where a variable is introduced. -/
def Use.declares (used : Use) : Bool :=
  used.created || used.qualified.isSome

/-- How a projection writes a column: with its origin, where that is not its name. -/
def Use.columnText (used : Use) (name : String) : String :=
  let origin := match used.qualified with
    | some (.renamed source) => source
    | some .expression => used.found.expression.getD name
    | none => name
  if origin = name then name else origin ++ " AS " ++ name

namespace Resolve

variable {α : Type}

/-- An operation of the scope, which is left as it was when that fails. -/
def onScope (operation : Scope → Except Fault (α × Scope)) : Resolve α := fun known =>
  match operation known.scope with
  | .ok (result, scope) => .ok result { known with scope }
  | .error fault => .error fault known

/-- A parameter keeps the place of its first mention and the value of its last. -/
def noteParameter : Identifier → Resolve Unit
  | .parameter name value =>
      modify fun known => { known with parameters := known.parameters.insert name value }
  | _ => pure ()

/-- Query text is never renamed: a mention that would rename it gets a variable of its own. -/
def slotFor (mention : Mention) (slot : Slot) : Resolve Slot := do
  let renames := mention.qualifier.isSome || mention.name.isSome
  if mention.identifier.text?.isSome && mention.bind.isNone && renames then
    return .detached ((← get).scope.get slot)
  else
    return slot

/-- A name without a qualifier does what a qualifier does. -/
def qualify (mention : Mention) (slot : Slot) : Resolve (Option Qualified × Slot) := do
  match mention.qualifier, mention.name with
  | some qualifier, name =>
      let (qualified, slot) ← onScope fun scope => do
        let (qualified, slot, scope) ← scope.qualify slot mention.identifier qualifier name
        return ((qualified, slot), scope)
      return (some qualified, slot)
  | none, some name =>
      let (qualified, slot) ← onScope fun scope => do
        let (qualified, slot, scope) ← scope.qualify slot mention.identifier name none
        return ((qualified, slot), scope)
      return (some qualified, slot)
  | none, none => return (none, slot)

def bind (mention : Mention) (slot : Slot) : Resolve Slot :=
  match mention.bind with
  | some token => onScope fun scope => scope.rebind slot mention.identifier token
  | none => pure slot

def use (mention : Mention) : Resolve Use := do
  noteParameter mention.identifier
  let resolution ← onScope fun scope => scope.resolve mention.identifier
  let slot ← slotFor mention resolution.slot
  let (qualified, slot) ← qualify mention slot
  let slot ← bind mention slot
  return ⟨(← get).scope.get slot, resolution.created, qualified⟩

/-- The text that refers to the mentioned variable. -/
def reference (mention : Mention) : Resolve String := do
  let used ← use mention
  match used.found.reference? with
  | some text => return text
  | none => throw (.unresolvedIdentifier mention.identifier.display)

def value (identifier : Identifier) : Resolve String :=
  reference { identifier }

def values (identifiers : List Identifier) : Resolve (List String) :=
  identifiers.mapM value

/-! ## Patterns -/

def property (entry : String × Identifier) : Resolve (String × String) := do
  return (entry.1, ← value entry.2)

def element (mention : Mention) : Resolve Element := do
  let used ← use mention
  let properties ← mention.properties.entries.mapM property
  return {
    reference := used.found.reference?
    label := mention.label <|> if used.declares then used.found.label else none
    length := mention.length
    properties := OrderedMap.ofList properties
    propertiesText := mention.propertiesText }

def link (hop : Hop) : Resolve Link := do
  let relationship ← element hop.relationship
  let node ← element hop.node
  return ⟨hop.direction, relationship, node⟩

/-- The path's variable is resolved before those of the walk. -/
def chain (pattern : Pattern) : Resolve Chain := do
  let path ← pattern.path.mapM reference
  let start ← element pattern.start
  let links ← pattern.hops.mapM link
  return ⟨path, start, links⟩

/-! ## Columns and keys -/

def column (mention : Mention) : Resolve Column := do
  let used ← use mention
  match used.found.reference? with
  | some name => return ⟨used.columnText name, name, used.found.destination⟩
  | none => throw (.unresolvedIdentifier mention.identifier.display)

def sortKey (key : SortKey Identifier) : Resolve (SortKey String) := do
  return ⟨← value key.operand, key.descending⟩

end Resolve

end GraphQuery
