import GraphQuery.Clause.Basic
import GraphQuery.Formula.Print

/-!
# Layout

The lines a clause is written on. A block stands two spaces further in than the clause it belongs
to, and no line ends in blanks.
-/

namespace GraphQuery

/-! ## Items -/

def Assignment.text : Assignment String → String
  | .property target value => target ++ " = " ++ value
  | .labels target names => target ++ ":" ++ Text.joinWith ":" names
  | .merge target value => target ++ " += " ++ value
  | .replace target value => target ++ " = " ++ value

def Removal.text : Removal String → String
  | .property target => target
  | .labels target names => target ++ ":" ++ Text.joinWith ":" names

def SortKey.text (key : SortKey String) : String :=
  if key.descending then key.operand ++ " DESC" else key.operand

def columnsText (distinct : Bool) (columns : List Column) : String :=
  let text := Text.joinWith ", " (columns.map Column.text)
  if distinct then "DISTINCT " ++ text else text

/-! ## Lines -/

/-- A line at a depth of nesting. -/
def lineAt (depth : Nat) (text : String) : String :=
  Text.trimEnd (String.ofList (List.replicate (2 * depth) ' ') ++ text)

/-- A comma after each item but the last. -/
def itemLines (depth : Nat) : List String → List String
  | [] => []
  | [item] => [lineAt depth item]
  | item :: rest => lineAt depth (item ++ ",") :: itemLines depth rest

/-- A single item stands beside its keyword, several stand below it. -/
def itemBlock (depth : Nat) (keyword : Keyword) (items : List String) : List String :=
  match items with
  | [item] => [lineAt depth (keyword.text ++ " " ++ item)]
  | _ => lineAt depth keyword.text :: itemLines (depth + 1) items

def Update.lines (depth : Nat) : Update String → List String
  | .set items => itemBlock depth .set (items.map Assignment.text)
  | .remove items =>
      [lineAt depth (Keyword.remove.text ++ " " ++ Text.joinWith ", " (items.map Removal.text))]
  | .delete detach targets =>
      [lineAt depth ((if detach then Keyword.detachDelete else Keyword.delete).text ++ " " ++
        Text.joinWith ", " targets)]

/-- The lines of a piece of query text, each moved to the depth it stands at. -/
def rawLines (depth : Nat) (text : String) : List String :=
  (Text.lines (Text.trim text)).map fun line => lineAt depth (Text.trim line)

/-- Lines put after one another on one. -/
def onOneLine (lines : List String) : String :=
  Text.joinWith " " (lines.map Text.trim)

mutual

def Clause.lines (depth : Nat) : Clause → List String
  | .use database => [lineAt depth (Keyword.use.text ++ " " ++ database)]
  | .pattern verb chains =>
      [lineAt depth (verb.keyword.text ++ " " ++ Text.joinWith ", " (chains.map Chain.text))]
  | .merge chain => [lineAt depth (Keyword.merge.text ++ " " ++ chain.text)]
  | .onMerge outcome items =>
      lineAt depth outcome.keyword.text ::
        itemBlock (depth + 1) .set (items.map Assignment.text)
  | .condition formula => [lineAt depth (Keyword.whereCondition.text ++ " " ++ formula.print)]
  | .project verb distinct columns =>
      [lineAt depth (verb.keyword.text ++ " " ++ columnsText distinct columns)]
  | .orderBy keys =>
      [lineAt depth (Keyword.orderBy.text ++ " " ++
        Text.joinWith ", " (keys.map SortKey.text))]
  | .skip count => [lineAt depth (Keyword.skip.text ++ " " ++ count)]
  | .limit count => [lineAt depth (Keyword.limit.text ++ " " ++ count)]
  | .update change => change.lines depth
  | .unwind list item =>
      [lineAt depth (Keyword.unwind.text ++ " " ++ list ++ " AS " ++ item)]
  | .call procedure => [lineAt depth (Keyword.call.text ++ " " ++ procedure)]
  | .showCommand command => [lineAt depth (Keyword.showCommand.text ++ " " ++ command)]
  | .yielding columns =>
      [lineAt depth (Keyword.yieldColumns.text ++ " " ++ columnsText false columns)]
  | .forEach item list updates =>
      [lineAt depth (Keyword.forEach.text ++ " (" ++ item ++ " IN " ++ list ++ " | " ++
        Text.joinWith " " (Clause.inlineAll updates) ++ ")")]
  | .subquery body =>
      lineAt depth "CALL \x7b" :: (Clause.linesAll (depth + 1) body ++ [lineAt depth "\x7d"])
  | .union mode branches => Clause.branchLines depth mode branches
  | .rawText text => rawLines depth text

/-- The lines of clauses one after another. -/
def Clause.linesAll (depth : Nat) : List Clause → List String
  | [] => []
  | clause :: rest => clause.lines depth ++ Clause.linesAll depth rest

/-- Each clause on a single line. -/
def Clause.inlineAll : List Clause → List String
  | [] => []
  | clause :: rest => onOneLine (clause.lines 0) :: Clause.inlineAll rest

/-- The lines of branches with the mode's keyword between neighbours. -/
def Clause.branchLines (depth : Nat) (mode : UnionMode) : List (List Clause) → List String
  | [] => []
  | [branch] => Clause.linesAll depth branch
  | branch :: next :: rest =>
      Clause.linesAll depth branch ++
        lineAt depth mode.keyword.text :: Clause.branchLines depth mode (next :: rest)

end

/-- The text of clauses at a depth of nesting. -/
def Clause.textAll (depth : Nat) (clauses : List Clause) : String :=
  Text.joinWith "\n" (Clause.linesAll depth clauses)

def Clause.text (clause : Clause) : String :=
  Text.joinWith "\n" (clause.lines 0)

end GraphQuery
