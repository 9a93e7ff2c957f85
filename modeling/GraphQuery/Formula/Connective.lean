/-!
# Connectives

The boolean operators and how tightly they bind: `NOT`, then `AND`, then `XOR`, then `OR`.
-/

namespace GraphQuery

inductive Connective
  | and
  | or
  | xor
  | not
  deriving DecidableEq, Repr

namespace Connective

/-- Larger binds tighter. -/
def precedence : Connective → Nat
  | .not => 4
  | .and => 3
  | .xor => 2
  | .or => 1

def isUnary : Connective → Bool
  | .not => true
  | _ => false

def keyword : Connective → String
  | .and => "AND"
  | .or => "OR"
  | .xor => "XOR"
  | .not => "NOT"

/-- Whether the connective takes so many operands. -/
def admits (connective : Connective) (operands : Nat) : Bool :=
  if connective.isUnary then operands = 1 else 2 ≤ operands

def arity (connective : Connective) : String :=
  if connective.isUnary then "exactly 1" else "at least 2"

end Connective

end GraphQuery
