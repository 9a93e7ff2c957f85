import GraphQuery.Formula.Basic
import GraphQuery.Formula.Word
import GraphQuery.Text.Line

/-!
# Printing formulas

An operand is put in parentheses when its connective differs from its parent's, unless it is a
negation, and when it is a piece of text with a connective of its own. Chains of one connective
need none.
-/

namespace GraphQuery.Formula

def needsParentheses (parent : Connective) : Formula String → Bool
  | .boolean connective _ =>
      !connective.isUnary && (connective.precedence < parent.precedence || connective ≠ parent)
  | .atom text | .raw text => hasConnective text
  | .comparison _ _ _ => false

mutual

def print : Formula String → String
  | .atom text => text
  | .raw text => text
  | .comparison left operator right => left ++ " " ++ operator ++ " " ++ right
  | .boolean connective operands =>
      if connective.isUnary then
        connective.keyword ++ " " ++ Text.concat (printOperands connective operands)
      else
        Text.joinWith (" " ++ connective.keyword ++ " ") (printOperands connective operands)

/-- The operands of a connective, those in parentheses that need them. -/
def printOperands (parent : Connective) : List (Formula String) → List String
  | [] => []
  | operand :: rest =>
      let text := print operand
      (if needsParentheses parent operand then "(" ++ text ++ ")" else text) ::
        printOperands parent rest

end

end GraphQuery.Formula
