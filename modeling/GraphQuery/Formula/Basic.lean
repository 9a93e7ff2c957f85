import GraphQuery.Fault
import GraphQuery.Identifier

/-!
# Formulas

Comparisons and boolean combinations over operands of any kind: identifiers while a condition is
being written, query text once they are resolved.
-/

namespace GraphQuery

inductive Formula (α : Type)
  /-- A single operand used as a predicate. -/
  | atom (operand : α)
  | comparison (left : α) (operator : String) (right : α)
  | boolean (connective : Connective) (operands : List (Formula α))
  | raw (text : String)
  deriving Inhabited

/-- A condition as it is written, before its identifiers are resolved. -/
abbrev Condition := Formula Identifier

namespace Formula

variable {α β : Type}

/-- Combines operands, if they are as many as the connective takes. -/
def combine (connective : Connective) (operands : List (Formula α)) : Except Fault (Formula α) :=
  if connective.admits operands.length then .ok (.boolean connective operands)
  else .error (.malformedFormula connective operands.length)

def negation (operand : Formula α) : Formula α := .boolean .not [operand]

variable {m : Type → Type} [Monad m]

mutual

/-- Rebuilds the tree with each operand replaced by the result of `f`, from left to right. -/
def mapM (f : α → m β) : Formula α → m (Formula β)
  | .atom operand => do return .atom (← f operand)
  | .comparison left operator right => do
      let left ← f left
      let right ← f right
      return .comparison left operator right
  | .boolean connective operands => do return .boolean connective (← mapOperandsM f operands)
  | .raw text => return .raw text

def mapOperandsM (f : α → m β) : List (Formula α) → m (List (Formula β))
  | [] => return []
  | operand :: rest => do
      let operand ← mapM f operand
      let rest ← mapOperandsM f rest
      return operand :: rest

end

mutual

def map (f : α → β) : Formula α → Formula β
  | .atom operand => .atom (f operand)
  | .comparison left operator right => .comparison (f left) operator (f right)
  | .boolean connective operands => .boolean connective (mapOperands f operands)
  | .raw text => .raw text

def mapOperands (f : α → β) : List (Formula α) → List (Formula β)
  | [] => []
  | operand :: rest => map f operand :: mapOperands f rest

end

@[simp] theorem mapOperands_eq (f : α → β) (operands : List (Formula α)) :
    mapOperands f operands = operands.map (map f) := by
  induction operands with
  | nil => rfl
  | cons operand rest ih => rw [mapOperands, ih, List.map_cons]

end Formula

end GraphQuery
