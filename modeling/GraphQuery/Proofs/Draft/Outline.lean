import GraphQuery.Proofs.Draft.Events

/-! # Outlines

The tree of keywords that a query is made of, and the one its program asks for. A run in which
nothing fails makes the one of the other. -/

namespace GraphQuery

/-- A keyword, and the outlines of the sequences inside the clause. -/
inductive Outline
  | node (keyword : Keyword) (blocks : List (List Outline))

mutual

def Clause.outline : Clause → Outline
  | .subquery body => .node .subquery [Clause.outlineAll body]
  | .forEach _ _ updates => .node .forEach [Clause.outlineAll updates]
  | .union mode branches => .node mode.keyword (Clause.outlineBranches branches)
  | clause => .node clause.keyword []

def Clause.outlineAll : List Clause → List Outline
  | [] => []
  | clause :: rest => clause.outline :: Clause.outlineAll rest

def Clause.outlineBranches : List (List Clause) → List (List Outline)
  | [] => []
  | branch :: rest => Clause.outlineAll branch :: Clause.outlineBranches rest

end

mutual

/-- The outline of what a step is to append, which is nothing for an issue of a token. -/
def Step.outline : Step → List Outline
  | .token | .entity _ => []
  | .call c => [.node c.keyword []]
  | .subquery body => [.node .subquery [Step.outlineAll body]]
  | .forEach _ _ updates => [.node .forEach [updates.map fun change => .node change.keyword []]]
  | .union mode branches => [.node mode.keyword (Step.outlineBranches branches)]

def Step.outlineAll : List Step → List Outline
  | [] => []
  | first :: rest => first.outline ++ Step.outlineAll rest

def Step.outlineBranches : List (List Step) → List (List Outline)
  | [] => []
  | branch :: rest => Step.outlineAll branch :: Step.outlineBranches rest

end

theorem Clause.outlineAll_append (clauses others : List Clause) :
    Clause.outlineAll (clauses ++ others) =
      Clause.outlineAll clauses ++ Clause.outlineAll others := by
  induction clauses with
  | nil => rfl
  | cons clause rest ih => simp [Clause.outlineAll, ih]

theorem Step.outlineAll_ofUpdates (updates : List (Update Identifier)) :
    Step.outlineAll (Step.ofUpdates updates) =
      updates.map fun change => .node change.keyword [] := by
  induction updates with
  | nil => rfl
  | cons change rest ih =>
      rw [List.map_cons, ← ih]
      rfl

/-! ## Calls -/

namespace Resolve

variable {α β : Type} {P : α → Prop} {Q : β → Prop}

/-- Whatever the action results in has the property. -/
def Yields (P : α → Prop) (action : Resolve α) : Prop :=
  ∀ known result after, action known = .ok result after → P result

theorem Yields.pure {result : α} (h : P result) : Yields P (pure result) := by
  intro known result' after hresult
  cases hresult
  exact h

theorem Yields.bind {first : Resolve α} {rest : α → Resolve β} (hfirst : Yields P first)
    (hrest : ∀ result, P result → Yields Q (rest result)) : Yields Q (first >>= rest) := by
  intro known result after h
  obtain ⟨value, middle, hmiddle, hresult⟩ := bind_ok h
  exact hrest value (hfirst known value middle hmiddle) middle result after hresult

theorem Yields.next {first : Resolve α} {rest : α → Resolve β}
    (hrest : ∀ result, Yields Q (rest result)) : Yields Q (first >>= rest) :=
  .bind (P := fun _ => True) (fun _ _ _ _ => trivial) fun result _ => hrest result

theorem Yields.map {first : Resolve α} {make : α → β} (h : ∀ result, Q (make result)) :
    Yields Q (first >>= fun result => Pure.pure (make result)) :=
  .next fun result => .pure (h result)

theorem yields_update (change : Update Identifier) :
    Yields (fun update : Update String => update.keyword = change.keyword)
      (change.mapM Resolve.value) := by
  cases change with
  | set items => exact .map fun _ => rfl
  | remove items => exact .map fun _ => rfl
  | delete detach targets => exact .map fun _ => by cases detach <;> rfl

/-- A call is made to a clause with its own keyword, and never to a block. -/
theorem yields_clause (call : Call) :
    Yields (fun clause => clause.outline = .node call.keyword []) call.clause := by
  cases call with
  | update change =>
      exact .bind (yields_update change) fun update h => .pure (congrArg (Outline.node · []) h)
  | unwind list item => exact .next fun _ => .map fun _ => rfl
  | pattern verb patterns => exact .map fun _ => rfl
  | merge walk => exact .map fun _ => rfl
  | onMerge outcome items => exact .map fun _ => rfl
  | condition formula => exact .map fun _ => rfl
  | project verb distinct items => exact .map fun _ => rfl
  | orderBy keys => exact .map fun _ => rfl
  | skip count => exact .map fun _ => rfl
  | limit count => exact .map fun _ => rfl
  | yielding items => exact .map fun _ => rfl
  | _ => exact .pure rfl

end Resolve

/-! ## Steps and runs -/

namespace Draft

variable (draft : Draft)

/-- Where nothing fails, the clauses a step appends have the outline it asks for. -/
def Mirrors (s : Step) : Prop :=
  ∀ draft : Draft, faults (stepEvents s draft) = [] →
    Clause.outlineAll (step s draft).clauses = Clause.outlineAll draft.clauses ++ s.outline

theorem push_outline {clause : Clause} (hcalm : faults (pushEvents clause) = []) :
    Clause.outlineAll (draft.push clause).clauses =
      Clause.outlineAll draft.clauses ++ [clause.outline] := by
  rw [push_calm hcalm]
  exact Clause.outlineAll_append draft.clauses [clause]

theorem fold_outline (inside : Draft) {clause : Clause} (hcalm : faults (pushEvents clause) = []) :
    Clause.outlineAll ((draft.absorbScope inside).push clause).clauses =
      Clause.outlineAll draft.clauses ++ [clause.outline] :=
  push_outline (draft.absorbScope inside) hcalm

theorem mirrors_call (c : Call) : Mirrors (.call c) := by
  intro draft hcalm
  obtain ⟨clause, known, hclause, hpush, hcall⟩ := call_calm hcalm
  rw [step, hcall, Step.outline, ← Resolve.yields_clause c _ _ _ hclause]
  exact push_outline { draft with known } hpush

theorem run_outline_of_mirrors {steps : List Step} (hsteps : ∀ s ∈ steps, Mirrors s)
    (hcalm : failures steps draft = []) :
    Clause.outlineAll (run steps draft).clauses =
      Clause.outlineAll draft.clauses ++ Step.outlineAll steps := by
  induction steps generalizing draft with
  | nil => exact (List.append_nil _).symm
  | cons first rest ih =>
      obtain ⟨hfirst, hrest⟩ := List.forall_mem_cons.mp hsteps
      obtain ⟨hhead, htail⟩ := faults_append_eq_nil_iff.mp hcalm
      rw [run_cons, ih _ hrest htail, hfirst draft hhead, Step.outlineAll, List.append_assoc]

theorem run_updates_outline {updates : List (Update Identifier)} {scope : Scope}
    (hcalm : faults (updateEvents updates (draft.inner scope)) = []) :
    Clause.outlineAll (run (Step.ofUpdates updates) (draft.inner scope)).clauses =
      updates.map fun change => .node change.keyword [] := by
  rw [← Step.outlineAll_ofUpdates]
  rw [← events_ofUpdates] at hcalm
  exact run_outline_of_mirrors _ (Step.forall_mem_ofUpdates mirrors_call updates) hcalm

theorem runBranches_outline_of_mirrors {branches : List (List Step)}
    (hbranches : ∀ branch ∈ branches, ∀ s ∈ branch, Mirrors s)
    (hcalm : faults (branchEvents branches draft) = []) :
    Clause.outlineBranches (runBranches branches draft).2 = Step.outlineBranches branches := by
  induction branches generalizing draft with
  | nil => rfl
  | cons branch rest ih =>
      obtain ⟨hbranch, hrest⟩ := List.forall_mem_cons.mp hbranches
      obtain ⟨hhead, htail⟩ := faults_append_eq_nil_iff.mp hcalm
      have hinside : Clause.outlineAll (run branch (draft.inner {})).clauses =
          Step.outlineAll branch := run_outline_of_mirrors _ hbranch hhead
      simp only [runBranches, Clause.outlineBranches, Step.outlineBranches, hinside,
        ih _ hrest htail]

theorem runBranches_clauses (branches : List (List Step)) :
    (runBranches branches draft).1.clauses = draft.clauses := by
  induction branches generalizing draft with
  | nil => rfl
  | cons branch rest ih => exact ih (draft.absorb _)

theorem mirrors (s : Step) : Mirrors s := by
  induction s with
  | token => exact fun draft _ => (List.append_nil _).symm
  | entity typeName =>
      intro draft _
      simp only [step, issue, entity]
      cases draft.catalog.describe typeName <;> exact (List.append_nil _).symm
  | call call => exact mirrors_call call
  | subquery body ihbody =>
      intro draft hcalm
      obtain ⟨hdepth, hbody, hpush⟩ := subquery_calm hcalm
      have hinside : Clause.outlineAll (run body (draft.inner draft.known.scope)).clauses =
          Step.outlineAll body := run_outline_of_mirrors _ ihbody hbody
      rw [step_subquery, hdepth, Step.outline, ← hinside]
      exact fold_outline draft _ hpush
  | forEach item list updates =>
      intro draft hcalm
      obtain ⟨hdepth, texts, known, -, hheading, hupdates, hpush⟩ := forEach_calm hcalm
      simp only [step_forEach, hdepth, hheading]
      rw [Step.outline, ← run_updates_outline _ hupdates]
      exact fold_outline { draft with known } _ hpush
  | union mode branches ihbranches =>
      intro draft hcalm
      obtain ⟨hdepth, hbranches, hpush⟩ := union_calm hcalm
      have hinside := runBranches_outline_of_mirrors draft ihbranches hbranches
      have houtline := push_outline (runBranches branches draft).1 hpush
      simp only [Clause.outline, hinside, runBranches_clauses] at houtline
      rw [step_union, hdepth]
      exact houtline

end Draft

end GraphQuery
