import GraphQuery.Catalog.Descriptor
import GraphQuery.Decimal.Shortest
import GraphQuery.Text.Character
import GraphQuery.Value

/-!
# Identifiers

The forms in which a call can refer to a variable or a value.
-/

namespace GraphQuery

/-! ## Tokens and entities -/

/-- Stands for a place of the caller's that a result column is to fill. -/
structure Token where
  number : Nat
  deriving DecidableEq, Repr

def Token.display (token : Token) : String := "#" ++ toString token.number

/-- A token for a value of a described type. -/
structure Entity where
  token : Token
  descriptor : Descriptor

/-- A field of a type, with the property it is stored under. -/
structure FieldPath where
  field : String
  property : String
  deriving DecidableEq, Repr

/-! ## Identifiers -/

inductive Identifier
  /-- No variable at all. -/
  | anonymous
  | name (text : String)
  /-- Query text to be taken as it stands. -/
  | raw (text : String)
  | token (token : Token) (descriptor : Option Descriptor)
  /-- A field of the entity behind a token. -/
  | field (owner : Token) (path : FieldPath)
  /-- A described type: an unnamed entity that carries its label. -/
  | typeValue (descriptor : Descriptor)
  | parameter (name : String) (value : Value)
  deriving Inhabited

namespace Identifier

/-- The text of an identifier that is given by its text. -/
def text? : Identifier → Option String
  | .name text | .raw text => some text
  | _ => none

/-- How messages show an identifier. -/
def display : Identifier → String
  | .anonymous => "()"
  | .name text | .raw text => text
  | .token t _ => t.display
  | .field owner path => owner.display ++ "." ++ path.field
  | .typeValue descriptor => ":" ++ descriptor.typeName
  | .parameter key _ => "$" ++ key

def ofText (text : String) : Identifier :=
  if Text.isPlainName text then .name text else .raw text

def ofBool (value : Bool) : Identifier := .raw (if value then "true" else "false")

def ofInt (value : Int) : Identifier := .raw (toString value)

def ofFloat (value : Float) : Identifier := .raw (Decimal.Double.ofFloat value).text

def ofToken (token : Token) : Identifier := .token token none

def ofEntity (entity : Entity) : Identifier := .token entity.token (some entity.descriptor)

end Identifier

/-- The field of an entity, which its descriptor must know. -/
def Entity.field (entity : Entity) (field : String) : Except Catalog.Error Identifier :=
  match entity.descriptor.property field with
  | .ok property => .ok (.field entity.token ⟨field, property⟩)
  | .error error => .error error

end GraphQuery
