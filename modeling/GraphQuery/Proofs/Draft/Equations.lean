import GraphQuery.Draft.Program
import GraphQuery.Proofs.Clause.Bindings

/-! # Equations of programs

What each step makes of a draft. The inside of a block is the run of a program: of its own steps,
of its updates as calls, or of its branches in turn. -/

namespace GraphQuery

/-- Induction over steps, with the steps of the blocks in them. -/
@[elab_as_elim, induction_eliminator]
theorem Step.induction {motive : Step → Prop} (token : motive .token)
    (entity : ∀ typeName, motive (.entity typeName)) (call : ∀ call, motive (.call call))
    (subquery : ∀ body, (∀ step ∈ body, motive step) → motive (.subquery body))
    (forEach : ∀ item list updates, motive (.forEach item list updates))
    (union : ∀ mode branches, (∀ branch ∈ branches, ∀ step ∈ branch, motive step) →
      motive (.union mode branches)) (step : Step) : motive step := by
  refine @Step.rec motive (fun steps => ∀ step ∈ steps, motive step)
    (fun branches => ∀ branch ∈ branches, ∀ step ∈ branch, motive step)
    token entity call subquery forEach union ?_ ?_ ?_ ?_ step
  · exact List.forall_mem_nil _
  · exact fun _ _ hstep hsteps => List.forall_mem_cons.mpr ⟨hstep, hsteps⟩
  · exact List.forall_mem_nil _
  · exact fun _ _ hbranch hbranches => List.forall_mem_cons.mpr ⟨hbranch, hbranches⟩

/-- The updates of a loop as calls. -/
def Step.ofUpdates (updates : List (Update Identifier)) : List Step :=
  updates.map fun change => .call (.update change)

theorem Step.forall_mem_ofUpdates {motive : Step → Prop} (call : ∀ c, motive (.call c))
    (updates : List (Update Identifier)) : ∀ s ∈ Step.ofUpdates updates, motive s :=
  List.forall_mem_map.mpr fun change _ => call (.update change)

namespace Draft

/-! ## Runs -/

@[simp] theorem run_nil (draft : Draft) : run [] draft = draft := rfl

@[simp] theorem run_cons (first : Step) (rest : List Step) (draft : Draft) :
    run (first :: rest) draft = run rest (step first draft) := rfl

/-- The branches of a union run in turn: the draft when all are folded in, and their clauses. -/
def runBranches : List (List Step) → Draft → Draft × List (List Clause)
  | [], draft => (draft, [])
  | branch :: rest, draft =>
      let inside := run branch (draft.inner {})
      let (after, bodies) := runBranches rest (draft.absorb inside)
      (after, inside.clauses :: bodies)

theorem branchesM_runs (branches : List (List Step)) (draft : Draft) :
    Id.run (draft.branchesM ((runs branches).map fun build inside => pure (build inside))) =
      runBranches branches draft := by
  induction branches generalizing draft with
  | nil => rfl
  | cons branch rest ih =>
      have hrest := ih (draft.absorb (run branch (draft.inner {})))
      rw [runBranches, ← hrest]
      rfl

/-! ## Resolving -/

section

variable {α : Type} {action : Resolve α} {draft after : Draft}

theorem resolving_ok {result : α} (h : draft.resolving action = (.ok result, after)) :
    ∃ known, action draft.known = .ok result known ∧ after = { draft with known } := by
  unfold resolving at h
  cases hresult : action draft.known with
  | ok value known =>
      rw [hresult] at h
      cases h
      exact ⟨known, rfl, rfl⟩
  | error fault known =>
      rw [hresult] at h
      cases h

theorem resolving_error {fault : Fault} (h : draft.resolving action = (.error fault, after)) :
    ∃ known, action draft.known = .error fault known ∧ after = { draft with known } := by
  unfold resolving at h
  cases hresult : action draft.known with
  | ok value known =>
      rw [hresult] at h
      cases h
  | error fault' known =>
      rw [hresult] at h
      cases h
      exact ⟨known, rfl, rfl⟩

/-- Resolving changes nothing but what is known. -/
theorem resolving_known {result : Except Fault α} (h : draft.resolving action = (result, after)) :
    ∃ known, after = { draft with known } := by
  cases result with
  | ok result =>
      obtain ⟨known, -, hafter⟩ := resolving_ok h
      exact ⟨known, hafter⟩
  | error fault =>
      obtain ⟨known, -, hafter⟩ := resolving_error h
      exact ⟨known, hafter⟩

end

/-! ## Finished queries -/

/-- What the draft compiles to, unless it has a fault or a clause is misplaced. -/
def query (draft : Draft) : Query := .ofPlaced draft.clauses draft.known.parameters

theorem compile_eq_ok_iff {draft : Draft} {query : Query} :
    draft.compile = .ok query ↔
      draft.fault = none ∧ Clause.checkPlacement draft.clauses = .ok () ∧ query = draft.query := by
  unfold compile
  cases draft.fault with
  | some fault => exact ⟨nofun, nofun⟩
  | none => simpa [Draft.query] using Query.compile_eq_ok_iff

/-! ## Steps -/

theorem push_eq {draft : Draft} {clause : Clause} (hsome : clause.isEmpty = false) :
    draft.push clause = { draft with clauses := draft.clauses ++ [clause] } := by
  rw [push, if_neg (Bool.eq_false_iff.mp hsome)]

theorem subquery_eq (draft : Draft) (build : Draft → Draft) :
    draft.subquery build =
      match draft.depthFault? with
      | some fault => draft.fail fault
      | none =>
          let inside := build (draft.inner draft.known.scope)
          (draft.absorbScope inside).push (.subquery inside.clauses) := by
  rw [subquery, subqueryM]
  cases draft.depthFault? <;> rfl

theorem step_subquery (body : List Step) (draft : Draft) :
    step (.subquery body) draft =
      match draft.depthFault? with
      | some fault => draft.fail fault
      | none =>
          let inside := run body (draft.inner draft.known.scope)
          (draft.absorbScope inside).push (.subquery inside.clauses) :=
  subquery_eq draft (run body)

theorem foldl_update (updates : List (Update Identifier)) (updater : Updater) :
    (updates.foldl Updater.update updater).draft = run (Step.ofUpdates updates) updater.draft := by
  induction updates generalizing updater with
  | nil => rfl
  | cons change rest ih => exact ih (updater.update change)

theorem step_forEach (item list : Identifier) (updates : List (Update Identifier))
    (draft : Draft) :
    step (.forEach item list updates) draft =
      match draft.depthFault? with
      | some fault => draft.fail fault
      | none =>
          match draft.resolving (heading item list) with
          | (.error fault, draft) => draft.fail fault
          | (.ok (item, list), draft) =>
              let inside := run (Step.ofUpdates updates) (draft.inner draft.known.scope)
              (draft.absorbScope inside).push (.forEach item list inside.clauses) := by
  rw [step, forEach, forEachM]
  cases draft.depthFault? with
  | some fault => rfl
  | none =>
      cases hheading : draft.resolving (heading item list) with
      | mk result resolved =>
          cases result with
          | error fault => rfl
          | ok texts =>
              simp only [← foldl_update updates ⟨resolved.inner resolved.known.scope⟩]
              rfl

theorem union_eq (draft : Draft) (mode : UnionMode) (branches : List (Draft → Draft)) :
    draft.union mode branches =
      match draft.depthFault? with
      | some fault => draft.fail fault
      | none =>
          let built := Id.run (draft.branchesM
            (branches.map fun build inside => pure (build inside)))
          built.1.push (.union mode built.2) := by
  rw [union, unionM]
  cases draft.depthFault? <;> rfl

theorem step_union (mode : UnionMode) (branches : List (List Step)) (draft : Draft) :
    step (.union mode branches) draft =
      match draft.depthFault? with
      | some fault => draft.fail fault
      | none =>
          (runBranches branches draft).1.push (.union mode (runBranches branches draft).2) := by
  rw [step, union_eq, branchesM_runs]

end Draft

end GraphQuery
