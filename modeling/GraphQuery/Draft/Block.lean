import GraphQuery.Draft.Basic

/-!
# Blocks

Subqueries, loops and unions. The inside of a block is a draft of its own, one level deeper, which
is folded into the outer draft when it is done. What builds the inside may have effects of its own,
in any monad; it does not run when the block would lie too deep.
-/

namespace GraphQuery

namespace Draft

/-- Why no further block may stand in this draft. -/
def depthFault? (draft : Draft) : Option Fault :=
  if draft.depth + 1 ≤ draft.settings.maxDepth then none
  else some (.nestingTooDeep (draft.depth + 1) draft.settings.maxDepth)

/-- The draft a block's inside begins with. -/
def inner (draft : Draft) (scope : Scope) : Draft :=
  { draft with
    known := { scope }
    clauses := []
    depth := draft.depth + 1
    fault := none }

/-- Takes over the tokens, parameters and fault of a finished inner draft. -/
def absorb (draft inside : Draft) : Draft :=
  { draft with
    known := { draft.known with
      parameters := draft.known.parameters.insertAll inside.known.parameters.entries }
    issued := max draft.issued inside.issued
    fault := draft.fault <|> inside.fault }

/-- Takes over the variables of a finished inner draft as well. -/
def absorbScope (draft inside : Draft) : Draft :=
  let draft := draft.absorb inside
  { draft with known := { draft.known with scope := inside.known.scope } }

variable {m : Type → Type} [Monad m]

/-! ## Subqueries -/

/-- The inside shares the variables of the draft around it. -/
def subqueryM (draft : Draft) (build : Draft → m Draft) : m Draft :=
  match draft.depthFault? with
  | some fault => return draft.fail fault
  | none => do
      let inside ← build (draft.inner draft.known.scope)
      return (draft.absorbScope inside).push (.subquery inside.clauses)

def subquery (draft : Draft) (build : Draft → Draft) : Draft :=
  Id.run (draft.subqueryM fun inside => pure (build inside))

/-! ## Loops -/

/-- The inside of a loop, which takes updates alone. -/
structure Updater where
  draft : Draft

def Updater.update (updater : Updater) (change : Update Identifier) : Updater :=
  ⟨updater.draft.call (.update change)⟩

/-- The texts of the item and of the list it runs through, of which the list is resolved first. -/
def heading (item list : Identifier) : Resolve (String × String) := do
  let list ← Resolve.value list
  let item ← Resolve.value item
  return (item, list)

/-- Nothing is built inside a loop whose heading does not resolve. -/
def forEachM (draft : Draft) (item list : Identifier) (build : Updater → m Updater) : m Draft :=
  match draft.depthFault? with
  | some fault => return draft.fail fault
  | none =>
      match draft.resolving (heading item list) with
      | (.error fault, draft) => return draft.fail fault
      | (.ok (item, list), draft) => do
          let inside ← build ⟨draft.inner draft.known.scope⟩
          return (draft.absorbScope inside.draft).push (.forEach item list inside.draft.clauses)

def forEach (draft : Draft) (item list : Identifier) (updates : List (Update Identifier)) :
    Draft :=
  Id.run (draft.forEachM item list fun updater => pure (updates.foldl Updater.update updater))

/-! ## Unions -/

/-- Builds the branches in turn, each with variables of its own but all tokens issued so far. -/
def branchesM (draft : Draft) :
    List (Draft → m Draft) → m (Draft × List (List Clause))
  | [] => return (draft, [])
  | build :: rest => do
      let inside ← build (draft.inner {})
      let (draft, bodies) ← branchesM (draft.absorb inside) rest
      return (draft, inside.clauses :: bodies)

def unionM (draft : Draft) (mode : UnionMode) (branches : List (Draft → m Draft)) : m Draft :=
  match draft.depthFault? with
  | some fault => return draft.fail fault
  | none => do
      let (draft, bodies) ← draft.branchesM branches
      return draft.push (.union mode bodies)

def union (draft : Draft) (mode : UnionMode) (branches : List (Draft → Draft)) : Draft :=
  Id.run (draft.unionM mode (branches.map fun build inside => pure (build inside)))

end Draft

end GraphQuery
