import GraphQuery.Identifier

/-!
# Variables

What is known of one variable of a query.
-/

namespace GraphQuery

structure Variable where
  /-- The alias it goes by since it was given one. -/
  name : Option String := none
  /-- The query text it stands for. -/
  expression : Option String := none
  label : Option String := none
  /-- The destination its column fills. -/
  destination : Option Token := none
  deriving DecidableEq, Repr, Inhabited

namespace Variable

/-- The text later clauses refer to it by: the alias before the expression. An empty text refers
to nothing. -/
def reference? (v : Variable) : Option String :=
  (v.name <|> v.expression).filter fun text => text ≠ ""

def hasExpression (v : Variable) : Bool :=
  v.expression.any fun text => text ≠ ""

end Variable

end GraphQuery
