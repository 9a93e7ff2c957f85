/-!
# Clause keywords

The keyword that heads each kind of clause, and the clauses it may directly follow.
-/

namespace GraphQuery

inductive Keyword
  | use
  | matchPattern
  | optionalMatch
  | create
  | merge
  | onMatch
  | onCreate
  | whereCondition
  | withColumns
  | returnColumns
  | orderBy
  | skip
  | limit
  | set
  | remove
  | delete
  | detachDelete
  | unwind
  | call
  | showCommand
  | yieldColumns
  | forEach
  | subquery
  | union
  | unionAll
  | rawText
  deriving DecidableEq, Repr

namespace Keyword

def text : Keyword → String
  | .use => "USE"
  | .matchPattern => "MATCH"
  | .optionalMatch => "OPTIONAL MATCH"
  | .create => "CREATE"
  | .merge => "MERGE"
  | .onMatch => "ON MATCH"
  | .onCreate => "ON CREATE"
  | .whereCondition => "WHERE"
  | .withColumns => "WITH"
  | .returnColumns => "RETURN"
  | .orderBy => "ORDER BY"
  | .skip => "SKIP"
  | .limit => "LIMIT"
  | .set => "SET"
  | .remove => "REMOVE"
  | .delete => "DELETE"
  | .detachDelete => "DETACH DELETE"
  | .unwind => "UNWIND"
  | .call => "CALL"
  | .showCommand => "SHOW"
  | .yieldColumns => "YIELD"
  | .forEach => "FOREACH"
  | .subquery => "CALL \x7b\x7d"
  | .union => "UNION"
  | .unionAll => "UNION ALL"
  | .rawText => "raw text"

/-- The clauses that a modifier must directly follow; any other clause stands where it likes. -/
def predecessors? : Keyword → Option (List Keyword)
  | .onMatch | .onCreate => some [.merge, .onMatch, .onCreate]
  | .orderBy => some [.withColumns, .returnColumns]
  | .skip => some [.withColumns, .returnColumns, .orderBy]
  | .limit => some [.withColumns, .returnColumns, .orderBy, .skip]
  | _ => none

end Keyword

end GraphQuery
