import GraphQuery.Clause.Chain
import GraphQuery.Clause.Keyword
import GraphQuery.Formula.Basic
import GraphQuery.Update

/-!
# Clauses

The clauses of a query, with all identifiers resolved to query text.
-/

namespace GraphQuery

inductive PatternVerb
  | matching
  | matchingOptionally
  | creating
  deriving DecidableEq, Repr

/-- When the updates after a merge take place. -/
inductive MergeOutcome
  | matched
  | created
  deriving DecidableEq, Repr

inductive ProjectVerb
  | passing
  | returning
  deriving DecidableEq, Repr

inductive UnionMode
  | distinct
  | all
  deriving DecidableEq, Repr

/-- A column of a projection: how it is written, what it is called, and the destination it
fills. -/
structure Column where
  text : String
  name : String
  destination : Option Token
  deriving DecidableEq, Repr

structure SortKey (α : Type) where
  operand : α
  descending : Bool := false
  deriving DecidableEq, Repr

inductive Clause
  | use (database : String)
  | pattern (verb : PatternVerb) (chains : List Chain)
  | merge (chain : Chain)
  | onMerge (outcome : MergeOutcome) (items : List (Assignment String))
  | condition (formula : Formula String)
  | project (verb : ProjectVerb) (distinct : Bool) (columns : List Column)
  | orderBy (keys : List (SortKey String))
  | skip (count : String)
  | limit (count : String)
  | update (change : Update String)
  | unwind (list item : String)
  | call (procedure : String)
  | showCommand (command : String)
  | yielding (columns : List Column)
  | forEach (item list : String) (updates : List Clause)
  | subquery (body : List Clause)
  | union (mode : UnionMode) (branches : List (List Clause))
  | rawText (text : String)

def PatternVerb.keyword : PatternVerb → Keyword
  | .matching => .matchPattern
  | .matchingOptionally => .optionalMatch
  | .creating => .create

def MergeOutcome.keyword : MergeOutcome → Keyword
  | .matched => .onMatch
  | .created => .onCreate

def ProjectVerb.keyword : ProjectVerb → Keyword
  | .passing => .withColumns
  | .returning => .returnColumns

def UnionMode.keyword : UnionMode → Keyword
  | .distinct => .union
  | .all => .unionAll

namespace Update

variable {α : Type}

def keyword : Update α → Keyword
  | .set _ => .set
  | .remove _ => .remove
  | .delete false _ => .delete
  | .delete true _ => .detachDelete

def isEmpty : Update α → Bool
  | .set items => items.isEmpty
  | .remove items => items.isEmpty
  | .delete _ targets => targets.isEmpty

end Update

namespace Clause

def keyword : Clause → Keyword
  | .use _ => .use
  | .pattern verb _ => verb.keyword
  | .merge _ => .merge
  | .onMerge outcome _ => outcome.keyword
  | .condition _ => .whereCondition
  | .project verb _ _ => verb.keyword
  | .orderBy _ => .orderBy
  | .skip _ => .skip
  | .limit _ => .limit
  | .update change => change.keyword
  | .unwind _ _ => .unwind
  | .call _ => .call
  | .showCommand _ => .showCommand
  | .yielding _ => .yieldColumns
  | .forEach _ _ _ => .forEach
  | .subquery _ => .subquery
  | .union mode _ => mode.keyword
  | .rawText _ => .rawText

/-- A clause made of items, or a block, that has none. -/
def isEmpty : Clause → Bool
  | .pattern _ chains => chains.isEmpty
  | .onMerge _ items => items.isEmpty
  | .project _ _ columns => columns.isEmpty
  | .orderBy keys => keys.isEmpty
  | .update change => change.isEmpty
  | .yielding columns => columns.isEmpty
  | .forEach _ _ updates => updates.isEmpty
  | .subquery body => body.isEmpty
  | .union _ branches => branches.isEmpty
  | _ => false

end Clause

end GraphQuery
