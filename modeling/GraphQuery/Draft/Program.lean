import GraphQuery.Draft.Block

/-!
# Programs

Whole runs of builder steps as data, blocks nested in them to any depth.
-/

namespace GraphQuery

inductive Step
  | token
  | entity (typeName : String)
  | call (call : Call)
  | subquery (body : List Step)
  | forEach (item list : Identifier) (updates : List (Update Identifier))
  | union (mode : UnionMode) (branches : List (List Step))

namespace Draft

/-- An issue that fails leaves the draft as it was. -/
def issue (draft : Draft) (typeName : String) : Draft :=
  match draft.entity typeName with
  | .ok (_, draft) => draft
  | .error _ => draft

mutual

def step : Step → Draft → Draft
  | .token, draft => draft.token.2
  | .entity typeName, draft => draft.issue typeName
  | .call call, draft => draft.call call
  | .subquery body, draft => draft.subquery fun inside => run body inside
  | .forEach item list updates, draft => draft.forEach item list updates
  | .union mode branches, draft => draft.union mode (runs branches)

/-- Takes the steps in turn. -/
def run : List Step → Draft → Draft
  | [], draft => draft
  | first :: rest, draft => run rest (step first draft)

def runs : List (List Step) → List (Draft → Draft)
  | [] => []
  | branch :: rest => (fun inside => run branch inside) :: runs rest

end

end Draft

end GraphQuery
