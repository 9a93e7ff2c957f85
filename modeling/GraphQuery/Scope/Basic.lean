import GraphQuery.Fault
import GraphQuery.Scope.Variable

/-!
# Scopes

The variables a query knows, and the three ways to reach one: by its text, by a token, or as the
field of a token. Anonymous identifiers, type values and parameters stand for a variable of their
own each time they are used, which no scope keeps.

A token whose variable has been bound to another token is *retired*: nothing can reach a variable
by it any more.
-/

namespace GraphQuery

structure Scope where
  stored : Array Variable := #[]
  byText : OrderedMap String Nat := ∅
  byToken : OrderedMap Token Nat := ∅
  byField : OrderedMap (Token × String) Nat := ∅
  /-- Variables that were given their expression; as fields they do not follow their owner. -/
  pinned : List Nat := []
  retired : List Token := []

/-- Where a variable is kept: in the scope, or nowhere but here. -/
inductive Slot
  | registered (id : Nat)
  | detached (held : Variable)
  deriving DecidableEq, Repr, Inhabited

structure Resolution where
  slot : Slot
  /-- The variable did not exist before. -/
  created : Bool
  deriving DecidableEq, Repr

/-- What a qualification gave the variable. -/
inductive Qualified
  | expression
  /-- An alias, in place of the reference it had before. -/
  | renamed (source : String)
  deriving DecidableEq, Repr

namespace Scope

instance : Inhabited Scope := ⟨{}⟩

/-! ## Reading and changing variables -/

def size (scope : Scope) : Nat := scope.stored.size

def at? (scope : Scope) (id : Nat) : Option Variable := scope.stored[id]?

def get (scope : Scope) : Slot → Variable
  | .registered id => (scope.at? id).getD {}
  | .detached held => held

def add (scope : Scope) (v : Variable) : Scope :=
  { scope with stored := scope.stored.push v }

def modifyAt (scope : Scope) (id : Nat) (change : Variable → Variable) : Scope :=
  { scope with stored := scope.stored.modify id change }

/-- Changes the variable in a slot, wherever it is kept. -/
def modify (scope : Scope) (slot : Slot) (change : Variable → Variable) : Slot × Scope :=
  match slot with
  | .registered id => (slot, scope.modifyAt id change)
  | .detached held => (.detached (change held), scope)

def checkLive (scope : Scope) (token : Token) : Except Fault Unit :=
  if token ∈ scope.retired then .error (.unresolvedIdentifier token.display) else .ok ()

/-! ## Resolving -/

/-- The variable of a text, which begins as its own expression. -/
def resolveText (scope : Scope) (text : String) : Resolution × Scope :=
  match scope.byText.get? text with
  | some id => (⟨.registered id, false⟩, scope)
  | none =>
      (⟨.registered scope.size, true⟩,
        { scope.add { expression := some text } with
          byText := scope.byText.insert text scope.size })

/-- The variable of a token, which begins without any text. -/
def resolveToken (scope : Scope) (token : Token) (label : Option String) : Resolution × Scope :=
  match scope.byToken.get? token with
  | some id => (⟨.registered id, false⟩, scope)
  | none =>
      (⟨.registered scope.size, true⟩,
        { scope.add { label, destination := some token } with
          byToken := scope.byToken.insert token scope.size })

/-- A property of the variable a token stands for, if there is a text to name that one by. -/
def propertyText? (scope : Scope) (owner : Token) (property : String) : Option String := do
  let id ← scope.byToken.get? owner
  let v ← scope.at? id
  let reference ← v.reference?
  return reference ++ "." ++ property

/-- The variable of a field. As long as it has neither alias nor expression of its own, its
expression is the property of whatever its owner is called at the time. -/
def resolveField (scope : Scope) (owner : Token) (path : FieldPath) : Resolution × Scope :=
  let text := scope.propertyText? owner path.property
  match scope.byField.get? (owner, path.field) with
  | some id =>
      (⟨.registered id, false⟩,
        if id ∈ scope.pinned then scope
        else scope.modifyAt id fun v =>
          if v.name.isNone then { v with expression := text } else v)
  | none =>
      (⟨.registered scope.size, true⟩,
        { scope.add { expression := text } with
          byField := scope.byField.insert (owner, path.field) scope.size })

/-- The variable an identifier stands for, made at its first use. -/
def resolve (scope : Scope) : Identifier → Except Fault (Resolution × Scope)
  | .anonymous => .ok (⟨.detached {}, true⟩, scope)
  | .name text | .raw text => .ok (scope.resolveText text)
  | .token token descriptor => do
      scope.checkLive token
      return scope.resolveToken token (descriptor.map Descriptor.label)
  | .field owner path => do
      scope.checkLive owner
      return scope.resolveField owner path
  | .typeValue descriptor => .ok (⟨.detached { label := some descriptor.label }, true⟩, scope)
  | .parameter name _ => .ok (⟨.detached { expression := some ("$" ++ name) }, true⟩, scope)

/-! ## Qualifying -/

def pin (scope : Scope) : Slot → Scope
  | .registered id => { scope with pinned := scope.pinned.insert id }
  | .detached _ => scope

/-- A variable that has an expression takes the qualifier as its alias, and then cannot be given
a name besides. One without takes the qualifier as its expression and the name as its alias. -/
def qualify (scope : Scope) (slot : Slot) (identifier : Identifier) (qualifier : String)
    (name : Option String) : Except Fault (Qualified × Slot × Scope) :=
  let before := scope.get slot
  if before.hasExpression then
    match name with
    | some _ => .error (.duplicateQualification identifier.display qualifier)
    | none =>
        let (slot, scope) := scope.modify slot fun v =>
          { v with name := some qualifier }
        .ok (.renamed (before.reference?.getD ""), slot, scope)
  else
    let (slot, scope) := scope.modify slot fun v =>
      { v with expression := some qualifier, name := name <|> v.name }
    .ok (.expression, slot, scope.pin slot)

/-! ## Binding -/

/-- Gives a detached variable a place in the scope. -/
def register (scope : Scope) : Slot → Nat × Scope
  | .registered id => (id, scope)
  | .detached held => (scope.size, scope.add held)

def retire (scope : Scope) (token : Token) : Scope :=
  { scope with
    byToken := scope.byToken.erase token
    retired := scope.retired.insert token }

/-- The token that an identifier is. -/
def replacedToken? (identifier : Identifier) (token : Token) : Option Token :=
  match identifier with
  | .token old _ => if old = token then none else some old
  | _ => none

/-- Attaches a token to a variable. A token that the identifier itself is gets retired. -/
def rebind (scope : Scope) (slot : Slot) (identifier : Identifier) (token : Token) :
    Except Fault (Slot × Scope) := do
  scope.checkLive token
  let (id, scope) := scope.register slot
  let scope := match replacedToken? identifier token with
    | some old => scope.retire old
    | none => scope
  let scope := scope.modifyAt id fun v => { v with destination := some token }
  return (.registered id, { scope with byToken := scope.byToken.insert token id })

end Scope

end GraphQuery
