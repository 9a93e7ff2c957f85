import GraphQuery.Clause.Layout
import GraphQuery.Clause.Placement

/-!
# Queries

A finished query: its text, the values of its parameters, and which of its columns fill which
destinations.
-/

namespace GraphQuery

structure Query where
  text : String
  parameters : OrderedMap String Value
  /-- Columns with the destinations they fill, each pair once, in the order of first return. -/
  bindings : List (String × Token)

def Column.binding? (column : Column) : Option (String × Token) :=
  column.destination.map fun token => (column.name, token)

/-- Adds the pairs that are not there yet. -/
def addBindings (bindings : List (String × Token)) (columns : List Column) :
    List (String × Token) :=
  (columns.filterMap Column.binding?).foldl
    (fun bindings pair => if pair ∈ bindings then bindings else bindings ++ [pair]) bindings

mutual

/-- Columns leave a query where it returns them, also in a branch of a union. What a subquery
returns goes to the query around it. -/
def Clause.bindings (found : List (String × Token)) : Clause → List (String × Token)
  | .project .returning _ columns => addBindings found columns
  | .union _ branches => Clause.bindingsOfBranches found branches
  | _ => found

def Clause.bindingsOfAll (found : List (String × Token)) : List Clause → List (String × Token)
  | [] => found
  | clause :: rest => Clause.bindingsOfAll (Clause.bindings found clause) rest

def Clause.bindingsOfBranches (found : List (String × Token)) :
    List (List Clause) → List (String × Token)
  | [] => found
  | branch :: rest => Clause.bindingsOfBranches (Clause.bindingsOfAll found branch) rest

end

namespace Query

/-- Puts clauses together to a query, unless one of them is misplaced. -/
def compile (clauses : List Clause) (parameters : OrderedMap String Value) :
    Except Fault Query :=
  match Clause.checkPlacement clauses with
  | .error fault => .error fault
  | .ok () => .ok ⟨Clause.textAll 0 clauses, parameters, Clause.bindingsOfAll [] clauses⟩

/-- The destination a column fills. -/
def destination? (query : Query) (column : String) : Option Token :=
  (query.bindings.find? fun binding => binding.1 = column).map Prod.snd

end Query

end GraphQuery
