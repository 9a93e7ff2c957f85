import GraphQuery.Yaml.Cursor
import GraphQuery.Yaml.Token

/-!
# Layout

How far a text has been read, and what its layout has opened: block collections by their columns,
flow collections, and at each level the place where a key may have begun. That a scalar was a key
is known only at the colon after it, when the token that says so is put in front of it.
-/

namespace GraphQuery.Yaml

/-- A place where a key may have begun. -/
structure KeyStart where
  place : Place
  /-- How many tokens stand before it. -/
  position : Nat
  /-- Nothing but a key may begin there. -/
  required : Bool

structure Layout where
  tokens : Array Token := #[]
  cursor : Cursor
  /-- Columns of the open block collections, the innermost first. -/
  columns : List Nat := []
  key : Option KeyStart := none
  /-- What may be keys around the open flow collections, the innermost first. -/
  outerKeys : List (Option KeyStart) := []
  /-- Whether a key may begin at the cursor. -/
  keyAllowed : Bool := true

namespace Layout

def inFlow (layout : Layout) : Bool := !layout.outerKeys.isEmpty

def column (layout : Layout) : Nat := layout.cursor.place.column

/-- The first column that is further in than the innermost block collection. -/
def margin (layout : Layout) : Nat :=
  match layout.columns with
  | [] => 0
  | column :: _ => column + 1

def emit (layout : Layout) (token : Token) : Layout :=
  { layout with tokens := layout.tokens.push token }

def emitAt (layout : Layout) (position : Nat) (token : Token) : Layout :=
  { layout with tokens := layout.tokens.insertIdxIfInBounds position token }

def forward (layout : Layout) (count : Nat) : Layout :=
  { layout with cursor := layout.cursor.forward count }

/-! ## Block collections -/

/-- Opens a block collection, unless one in this column is open. Its token goes to `position`. -/
def openBlock (layout : Layout) (column position : Nat) (token : Token) : Layout :=
  if layout.inFlow || column < layout.margin then layout
  else { layout.emitAt position token with columns := column :: layout.columns }

/-- Closes the block collections for which `closes` holds of their column. -/
def closeBlocks (layout : Layout) (closes : Nat → Bool) : Layout :=
  let closed := layout.columns.takeWhile closes
  { layout with
    tokens := layout.tokens ++ (closed.map fun _ => Token.blockEnd).toArray
    columns := layout.columns.drop closed.length }

/-! ## Keys -/

/-- Gives up a place where a key may have begun. -/
def dropKey (layout : Layout) : Option Layout :=
  if layout.key.any KeyStart.required then none else some { layout with key := none }

/-- Notes that a key may begin at the cursor. -/
def noteKey (layout : Layout) : Option Layout :=
  if layout.keyAllowed then do
    let required := !layout.inFlow && layout.columns.head? = some layout.column
    let layout ← layout.dropKey
    return { layout with key := some ⟨layout.cursor.place, layout.tokens.size, required⟩ }
  else some layout

/-- A key is on one line and takes up no more than 1024 bytes. -/
def isStale (layout : Layout) (start : KeyStart) : Bool :=
  start.place.line < layout.cursor.place.line ||
    start.place.bytes + 1024 < layout.cursor.place.bytes

/-- Gives up the place where a key may have begun, if by now none can have. The places around open
flow collections come up when these close. -/
def dropStaleKey (layout : Layout) : Option Layout :=
  if layout.key.any layout.isStale then layout.dropKey else some layout

end Layout

end GraphQuery.Yaml
