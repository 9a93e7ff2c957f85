import GraphQuery.Yaml.Reading

/-!
# What nodes mean

Reads a node as what is wanted in its place. Every scalar is a text; what else a scalar may be is
decided by its own text, and only where it is plain or its tag says so. A plain scalar with no text
is a collection with nothing in it.
-/

namespace GraphQuery.Yaml

/-! ## Numbers -/

def digit? (radix : Nat) (c : Char) : Option Nat :=
  (hexDigit? c).filter fun digit => digit < radix

def digits? (radix : Nat) (text : List Char) : Option Nat :=
  if text.isEmpty then none
  else text.foldlM (fun value c => (digit? radix c).map (radix * value + ·)) 0

/-- Decimal digits without leading zeros, or digits after the mark of another radix. -/
def unsigned? : List Char → Option Nat
  | '0' :: 'x' :: text => digits? 16 text
  | '0' :: 'o' :: text => digits? 8 text
  | '0' :: 'b' :: text => digits? 2 text
  | '0' :: _ :: _ => none
  | text => digits? 10 text

def natural? (text : String) : Option Nat :=
  match text.toList with
  | '+' :: text => unsigned? text
  | text => unsigned? text

/-! ## Scalars -/

namespace Scalar

/-- Whether the scalar may be something else than a text: a plain one may, and a literal block
where its tag is the one of the core schema with this name. -/
def mayBe (scalar : Scalar) (name : String) : Bool :=
  match scalar.style with
  | .plain => true
  | .literal => scalar.tag = some (Uri.ofString ("tag:yaml.org,2002:" ++ name))
  | .other => false

def isEmpty (scalar : Scalar) : Bool :=
  scalar.style = .plain && scalar.text.isEmpty

def isNullWord (scalar : Scalar) : Bool :=
  ["~", "null", "Null", "NULL"].contains scalar.text

/-- A text, or nothing where the scalar is null. The tag of null leaves no choice, and any other
makes a text of it. -/
def optionalText? (scalar : Scalar) : Option (Option String) :=
  match scalar.style, scalar.tag with
  | .plain, none => some (if scalar.isEmpty || scalar.isNullWord then none else some scalar.text)
  | .plain, some tag =>
      if tag ≠ Uri.ofString "tag:yaml.org,2002:null" then some (some scalar.text)
      else if scalar.isNullWord then some none
      else none
  | _, _ => some (some scalar.text)

/-- A number below `bound`. -/
def naturalBelow? (bound : Nat) (scalar : Scalar) : Option Nat :=
  if scalar.mayBe "int" then (natural? scalar.text).filter fun number => number < bound else none

def flag? (scalar : Scalar) : Option Bool :=
  if !scalar.mayBe "bool" then none
  else match scalar.text with
    | "true" | "True" | "TRUE" => some true
    | "false" | "False" | "FALSE" => some false
    | _ => none

/-- The name of one of several choices: a text, or a tag after an exclamation mark on a scalar that
is null. -/
def choice? (scalar : Scalar) : Option String :=
  match (scalar.tag.bind Uri.text?).map String.toList with
  | some ('!' :: name) =>
      if scalar.style = .plain && (scalar.isEmpty || scalar.isNullWord) then
        some (if name.isEmpty then "!" else String.ofList name)
      else none
  | _ => some scalar.text

end Scalar

/-! ## Nodes -/

namespace Reading

/-- Reads a scalar by `meaning`. -/
def scalar {α : Type} (meaning : Scalar → Option α) (node : Node) : Reading α := do
  match ← follow node with
  | .scalar scalar => ofOption (meaning scalar)
  | _ => failure

def text (node : Node) : Reading String :=
  scalar (fun scalar => some scalar.text) node

/-- Reads the items of a sequence. -/
def items {α : Type} (item : Node → Reading α) (node : Node) : Reading (List α) := do
  match ← follow node with
  | .sequence items => items.mapM item
  | .scalar scalar => if scalar.isEmpty then return [] else failure
  | _ => failure

def entries (node : Node) : Reading (List (Node × Node)) := do
  match ← follow node with
  | .mapping entries => return entries
  | .scalar scalar => if scalar.isEmpty then return [] else failure
  | _ => failure

/-- Reads a mapping of texts to texts. A repeated key keeps its place and takes the last value. -/
def texts (node : Node) : Reading (OrderedMap String String) := do
  let entries ← (← entries node).mapM fun (key, value) => return (← text key, ← text value)
  return OrderedMap.ofList entries

/-- Adds an entry to the fields found so far, none of which may be repeated. Entries under other
names than the fields' are left out. -/
def addField (names : List String) (fields : OrderedMap String Node) (entry : Node × Node) :
    Reading (OrderedMap String Node) := do
  let name ← text entry.1
  if !names.contains name then return fields
  else if fields.contains name then failure
  else return fields.insert name entry.2

/-- Reads the fields of a record, of which some may be missing. -/
def fields (names : List String) (node : Node) : Reading (OrderedMap String Node) := do
  (← entries node).foldlM (addField names) ∅

/-- Reads a field of a record. -/
def field {α : Type} (fields : OrderedMap String Node) (name : String)
    (read : Node → Reading α) : Reading α :=
  match fields.get? name with
  | some node => read node
  | none => failure

/-- Reads a field of a record, or keeps to `standard` where it is missing. -/
def fieldOr {α : Type} (fields : OrderedMap String Node) (name : String) (standard : α)
    (read : Node → Reading α) : Reading α :=
  match fields.get? name with
  | some node => read node
  | none => return standard

end Reading

end GraphQuery.Yaml
