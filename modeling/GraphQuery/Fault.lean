import GraphQuery.Catalog.Error
import GraphQuery.Clause.Keyword
import GraphQuery.Formula.Connective
import GraphQuery.Text.Line

/-!
# Faults

Why a query cannot be built or compiled.
-/

namespace GraphQuery

inductive Fault
  /-- A use asks for a name and an expression where the variable has an expression already. -/
  | duplicateQualification (shown requested : String)
  /-- There is no text that could stand for the identifier. -/
  | unresolvedIdentifier (shown : String)
  | malformedFormula (connective : Connective) (found : Nat)
  | emptyClause (keyword : Keyword)
  | nestingTooDeep (depth limit : Nat)
  /-- A modifier does not directly follow a clause that it modifies. -/
  | misplacedClause (keyword : Keyword)
  | catalog (error : Catalog.Error)
  deriving DecidableEq, Repr

/-- Alternatives in a sentence: `A`, `A or B`, `A, B or C`. -/
def alternatives (texts : List String) : String :=
  match texts.reverse with
  | [] => ""
  | [text] => text
  | last :: rest => Text.joinWith ", " rest.reverse ++ " or " ++ last

def Fault.message : Fault → String
  | .duplicateQualification shown requested =>
      "Cannot qualify `" ++ shown ++ "` as `" ++ requested ++
        "`: it already has both a name and an expression"
  | .unresolvedIdentifier shown =>
      "Unresolved identifier `" ++ shown ++ "` (never bound, or replaced by a later bind)"
  | .malformedFormula connective found =>
      connective.keyword ++ " expects " ++ connective.arity ++ " operand(s), got " ++ toString found
  | .emptyClause keyword => keyword.text ++ " needs at least one item"
  | .nestingTooDeep depth limit =>
      "Nesting depth " ++ toString depth ++ " exceeds the configured maximum of " ++ toString limit
  | .misplacedClause keyword =>
      "Misplaced " ++ keyword.text ++ " clause: it must directly follow " ++
        alternatives ((keyword.predecessors?.getD []).map Keyword.text)
  | .catalog error => error.message

end GraphQuery
