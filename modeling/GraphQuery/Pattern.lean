import GraphQuery.Mention

/-!
# Patterns

A walk through the graph as a call writes it.
-/

namespace GraphQuery

inductive Direction
  | outgoing
  | incoming
  | undirected
  deriving DecidableEq, Repr

/-- From one node along a relationship to the next. -/
structure Hop where
  direction : Direction
  relationship : Mention
  node : Mention

structure Pattern where
  start : Mention
  hops : List Hop := []
  /-- The variable that stands for the whole walk. -/
  path : Option Mention := none

end GraphQuery
