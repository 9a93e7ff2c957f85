import GraphQuery.Draft.Resolution

/-!
# Calls

The calls that append one clause to a query.
-/

namespace GraphQuery

inductive Call
  | use (database : String)
  | pattern (verb : PatternVerb) (patterns : List Pattern)
  | merge (pattern : Pattern)
  | onMerge (outcome : MergeOutcome) (items : List (Assignment Identifier))
  | condition (formula : Condition)
  | project (verb : ProjectVerb) (distinct : Bool) (items : List Mention)
  | orderBy (keys : List (SortKey Identifier))
  | skip (count : Identifier)
  | limit (count : Identifier)
  | update (change : Update Identifier)
  | unwind (list : Identifier) (item : Mention)
  | call (procedure : String)
  | showCommand (command : String)
  | yielding (items : List Mention)
  | rawText (text : String)

/-- The keyword of the clause a call appends. -/
def Call.keyword : Call → Keyword
  | .use _ => .use
  | .pattern verb _ => verb.keyword
  | .merge _ => .merge
  | .onMerge outcome _ => outcome.keyword
  | .condition _ => .whereCondition
  | .project verb _ _ => verb.keyword
  | .orderBy _ => .orderBy
  | .skip _ => .skip
  | .limit _ => .limit
  | .update change => change.keyword
  | .unwind _ _ => .unwind
  | .call _ => .call
  | .showCommand _ => .showCommand
  | .yielding _ => .yieldColumns
  | .rawText _ => .rawText

/-- The clause of a call, its operands resolved in the order they are written. -/
def Call.clause : Call → Resolve Clause
  | .use database => return .use database
  | .pattern verb patterns => do return .pattern verb (← patterns.mapM Resolve.chain)
  | .merge walk => do return .merge (← Resolve.chain walk)
  | .onMerge outcome items => do
      return .onMerge outcome (← items.mapM (Assignment.mapM Resolve.value))
  | .condition formula => do return .condition (← formula.mapM Resolve.value)
  | .project verb distinct items => do
      return .project verb distinct (← items.mapM Resolve.column)
  | .orderBy keys => do return .orderBy (← keys.mapM Resolve.sortKey)
  | .skip count => do return .skip (← Resolve.value count)
  | .limit count => do return .limit (← Resolve.value count)
  | .update change => do return .update (← change.mapM Resolve.value)
  | .unwind list item => do
      let list ← Resolve.value list
      let item ← Resolve.reference item
      return .unwind list item
  | .call procedure => return .call procedure
  | .showCommand command => return .showCommand command
  | .yielding items => do return .yielding (← items.mapM Resolve.column)
  | .rawText text => return .rawText text

end GraphQuery
