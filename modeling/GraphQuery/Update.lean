/-!
# Updates

The items that change a graph and the clauses made of them, over operands of any kind: identifiers
as a call writes them, query text once they are resolved.
-/

namespace GraphQuery

inductive Assignment (α : Type)
  | property (target value : α)
  | labels (target : α) (labels : List String)
  /-- Adds the properties of `value` to those of `target`. -/
  | merge (target value : α)
  /-- Gives `target` the properties of `value` in place of its own. -/
  | replace (target value : α)
  deriving DecidableEq, Repr

inductive Removal (α : Type)
  | property (target : α)
  | labels (target : α) (labels : List String)
  deriving DecidableEq, Repr

/-- A clause that changes the graph and needs nothing but items. -/
inductive Update (α : Type)
  | set (items : List (Assignment α))
  | remove (items : List (Removal α))
  | delete (detach : Bool) (targets : List α)
  deriving DecidableEq, Repr

variable {α β : Type} {m : Type → Type} [Monad m]

def Assignment.mapM (f : α → m β) : Assignment α → m (Assignment β)
  | .property target value => do
      let target ← f target
      let value ← f value
      return .property target value
  | .labels target names => do return .labels (← f target) names
  | .merge target value => do
      let target ← f target
      let value ← f value
      return .merge target value
  | .replace target value => do
      let target ← f target
      let value ← f value
      return .replace target value

def Removal.mapM (f : α → m β) : Removal α → m (Removal β)
  | .property target => do return .property (← f target)
  | .labels target names => do return .labels (← f target) names

def Update.mapM (f : α → m β) : Update α → m (Update β)
  | .set items => do return .set (← items.mapM (Assignment.mapM f))
  | .remove items => do return .remove (← items.mapM (Removal.mapM f))
  | .delete detach targets => do return .delete detach (← targets.mapM f)

end GraphQuery
