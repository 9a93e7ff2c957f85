import GraphQuery.Catalog.Basic
import GraphQuery.Draft.Call
import GraphQuery.Query
import GraphQuery.Settings.Basic

/-!
# Drafts

A query that is being built. Each call resolves what it mentions and appends its clause. A call
that fails appends nothing and leaves its fault; of several faults the first stays. Later calls go
on regardless.
-/

namespace GraphQuery

structure Draft where
  catalog : Catalog := {}
  settings : Settings := {}
  known : Vocabulary := {}
  clauses : List Clause := []
  /-- How many tokens have been issued. -/
  issued : Nat := 0
  /-- How many blocks this one stands in. -/
  depth : Nat := 0
  fault : Option Fault := none
  deriving Inhabited

namespace Draft

/-! ## Tokens -/

/-- Tokens are numbered from one in the order of their issue. -/
def token (draft : Draft) : Token × Draft :=
  (⟨draft.issued + 1⟩, { draft with issued := draft.issued + 1 })

/-- A token for a type of the catalog. For an unknown type none is issued. -/
def entity (draft : Draft) (typeName : String) : Except Catalog.Error (Entity × Draft) :=
  match draft.catalog.describe typeName with
  | .ok descriptor =>
      let (token, draft) := draft.token
      .ok (⟨token, descriptor⟩, draft)
  | .error error => .error error

def typeValue (draft : Draft) (typeName : String) : Except Catalog.Error Identifier :=
  match draft.catalog.describe typeName with
  | .ok descriptor => .ok (.typeValue descriptor)
  | .error error => .error error

/-! ## Clauses -/

/-- Leaves a fault, unless there is an earlier one. -/
def fail (draft : Draft) (fault : Fault) : Draft :=
  { draft with fault := draft.fault <|> some fault }

/-- Appends a clause, which must not be empty. -/
def push (draft : Draft) (clause : Clause) : Draft :=
  if clause.isEmpty then draft.fail (.emptyClause clause.keyword)
  else { draft with clauses := draft.clauses ++ [clause] }

/-- Resolves with what the draft knows, and keeps what became known. -/
def resolving {α : Type} (draft : Draft) (action : Resolve α) : Except Fault α × Draft :=
  match action draft.known with
  | .ok result known => (.ok result, { draft with known })
  | .error fault known => (.error fault, { draft with known })

def call (draft : Draft) (call : Call) : Draft :=
  match draft.resolving call.clause with
  | (.ok clause, draft) => draft.push clause
  | (.error fault, draft) => draft.fail fault

/-- The finished query, unless a call has failed or a clause is misplaced. -/
def compile (draft : Draft) : Except Fault Query :=
  match draft.fault with
  | some fault => .error fault
  | none => Query.compile draft.clauses draft.known.parameters

end Draft

end GraphQuery
