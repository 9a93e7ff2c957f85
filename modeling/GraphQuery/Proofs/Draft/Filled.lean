import Mathlib.Data.List.Forall2
import Mathlib.Tactic.MkIffOfInductiveProp
import GraphQuery.Proofs.Draft.Everywhere

/-! # Filled queries

A clause that has no items, or a block without clauses, is never appended. It is not looked into
further: a branch of a union and a list of labels are taken as they are, so they are filled just
when the program gives something to fill them with. -/

namespace GraphQuery

/-! ## Labels -/

def Assignment.labelLists {α : Type} : Assignment α → List (List String)
  | .labels _ names => [names]
  | _ => []

def Removal.labelLists {α : Type} : Removal α → List (List String)
  | .labels _ names => [names]
  | _ => []

def Update.labelLists {α : Type} : Update α → List (List String)
  | .set items => items.flatMap Assignment.labelLists
  | .remove items => items.flatMap Removal.labelLists
  | .delete _ _ => []

/-- The lists of labels that a clause sets or removes. -/
def Clause.labelLists : Clause → List (List String)
  | .onMerge _ items => items.flatMap Assignment.labelLists
  | .update change => change.labelLists
  | _ => []

def Call.labelLists : Call → List (List String)
  | .onMerge _ items => items.flatMap Assignment.labelLists
  | .update change => change.labelLists
  | _ => []

namespace Resolve

theorem Yields.mapM {α β γ : Type} {f : α → Resolve β} {before : α → List γ} {after : β → List γ}
    (hf : ∀ item, Yields (fun result => after result = before item) (f item)) (items : List α) :
    Yields (fun results => results.flatMap after = items.flatMap before) (items.mapM f) := by
  induction items with
  | nil => exact .pure rfl
  | cons item rest ih =>
      rw [List.mapM_cons]
      refine .bind (hf item) fun result hresult => .bind ih fun results hresults => .pure ?_
      rw [List.flatMap_cons, List.flatMap_cons, hresult, hresults]

theorem yields_assignment_labels (item : Assignment Identifier) :
    Yields (fun result => result.labelLists = item.labelLists) (item.mapM value) := by
  cases item with
  | labels target names => exact .map fun _ => rfl
  | property target value => exact .next fun _ => .map fun _ => rfl
  | merge target value => exact .next fun _ => .map fun _ => rfl
  | replace target value => exact .next fun _ => .map fun _ => rfl

theorem yields_removal_labels (item : Removal Identifier) :
    Yields (fun result => result.labelLists = item.labelLists) (item.mapM value) := by
  cases item with
  | labels target names => exact .map fun _ => rfl
  | property target => exact .map fun _ => rfl

theorem yields_update_labels (change : Update Identifier) :
    Yields (fun result => result.labelLists = change.labelLists) (change.mapM value) := by
  cases change with
  | set items => exact .bind (.mapM yields_assignment_labels items) fun _ h => .pure h
  | remove items => exact .bind (.mapM yields_removal_labels items) fun _ h => .pure h
  | delete detach targets => exact .map fun _ => rfl

/-- A call passes on the labels it is given. -/
theorem yields_labels (call : Call) :
    Yields (fun clause => clause.labelLists = call.labelLists) call.clause := by
  cases call with
  | update change => exact .bind (yields_update_labels change) fun _ h => .pure h
  | onMerge outcome items => exact .bind (.mapM yields_assignment_labels items) fun _ h => .pure h
  | unwind list item => exact .next fun _ => .map fun _ => rfl
  | pattern verb patterns => exact .map fun _ => rfl
  | merge walk => exact .map fun _ => rfl
  | condition formula => exact .map fun _ => rfl
  | project verb distinct items => exact .map fun _ => rfl
  | orderBy keys => exact .map fun _ => rfl
  | skip count => exact .map fun _ => rfl
  | limit count => exact .map fun _ => rfl
  | yielding items => exact .map fun _ => rfl
  | _ => exact .pure rfl

end Resolve

/-! ## Filled clauses -/

/-- No part of the clause is empty: neither the clause, nor a block or branch of it, nor a list of
labels. -/
structure Clause.Filled (clause : Clause) : Prop where
  nonempty : clause.isEmpty = false
  bodies : ∀ body ∈ clause.bodies, body ≠ []
  labels : ∀ names ∈ clause.labelLists, names ≠ []

/-- The programs of the blocks that a step begins. -/
def Step.bodies : Step → List (List Step)
  | .subquery body => [body]
  | .forEach _ _ updates => [Step.ofUpdates updates]
  | .union _ branches => branches
  | _ => []

def Step.labelLists : Step → List (List String)
  | .call c => c.labelLists
  | _ => []

/-- The step gives something to fill its clause with: a call for each block, and labels for each
list of labels. -/
@[mk_iff]
structure Step.Supplies (s : Step) : Prop where
  bodies : ∀ body ∈ s.bodies, Step.outlineAll body ≠ []
  labels : ∀ names ∈ s.labelLists, names ≠ []

theorem supplied_of_bare {s : Step} (hbodies : s.bodies = []) (hlabels : s.labelLists = []) :
    Everywhere Step.bodies Step.Supplies [s] := by
  rw [everywhere_singleton, Step.supplies_iff, hbodies, hlabels]
  exact ⟨⟨nofun, nofun⟩, nofun⟩

/-- The clauses of a block and the program they come from: in outline the same, and filled if it
supplies what they need. -/
structure Fills (part : List Step) (body : List Clause) : Prop where
  outline : Clause.outlineAll body = Step.outlineAll part
  filled : Everywhere Clause.bodies Clause.Filled body ↔
    Everywhere Step.bodies Step.Supplies part

theorem Fills.ne_nil_iff {part : List Step} {body : List Clause} (h : Fills part body) :
    body ≠ [] ↔ Step.outlineAll part ≠ [] := by
  rw [← h.outline, ne_eq, ne_eq, Clause.outlineAll_eq_nil_iff]

theorem Fills.forall_bodies_iff {parts : List (List Step)} {bodies : List (List Clause)}
    (h : List.Forall₂ Fills parts bodies) :
    ((∀ body ∈ bodies, body ≠ []) ↔ ∀ part ∈ parts, Step.outlineAll part ≠ []) ∧
      ((∀ body ∈ bodies, Everywhere Clause.bodies Clause.Filled body) ↔
        ∀ part ∈ parts, Everywhere Step.bodies Step.Supplies part) := by
  induction h with
  | nil => exact ⟨iff_of_true nofun nofun, iff_of_true nofun nofun⟩
  | cons hfirst _ ih =>
      simp only [List.forall_mem_cons]
      exact ⟨and_congr hfirst.ne_nil_iff ih.1, and_congr hfirst.filled ih.2⟩

namespace Draft

variable (draft : Draft)

/-! ## Steps -/

/-- Where nothing fails, a step leaves clauses that are filled if it supplies what they need. -/
def FillsBy (s : Step) : Prop :=
  ∀ draft : Draft, faults (stepEvents s draft) = [] →
    (Everywhere Clause.bodies Clause.Filled (step s draft).clauses ↔
      Everywhere Clause.bodies Clause.Filled draft.clauses ∧
        Everywhere Step.bodies Step.Supplies [s])

/-- A clause is filled as its step supplies if each of its blocks is. -/
theorem filled_push_iff {clause : Clause} {s : Step} (hcalm : faults (pushEvents clause) = [])
    (hlabels : clause.labelLists = s.labelLists)
    (hbodies : List.Forall₂ Fills s.bodies clause.bodies) :
    Everywhere Clause.bodies Clause.Filled (draft.push clause).clauses ↔
      Everywhere Clause.bodies Clause.Filled draft.clauses ∧
        Everywhere Step.bodies Step.Supplies [s] := by
  obtain ⟨hne, hfilled⟩ := Fills.forall_bodies_iff hbodies
  have hclause : clause.Filled ↔ s.Supplies :=
    ⟨fun h => ⟨hne.mp h.bodies, hlabels ▸ h.labels⟩,
      fun h => ⟨isEmpty_of_calm hcalm, hne.mpr h.bodies, hlabels ▸ h.labels⟩⟩
  rw [push_calm hcalm, everywhere_append, everywhere_singleton,
    everywhere_singleton, hclause, hfilled]

theorem fillsBy_call (c : Call) : FillsBy (.call c) := by
  intro draft hcalm
  obtain ⟨clause, known, hclause, hpush, hcall⟩ := call_calm hcalm
  rw [step, hcall]
  refine filled_push_iff { draft with known } hpush (Resolve.yields_labels c _ _ _ hclause) ?_
  rw [Call.bodies_of_clause hclause]
  exact .nil

theorem run_filled_of_fillsBy {steps : List Step} (hsteps : ∀ s ∈ steps, FillsBy s)
    (hcalm : failures steps draft = []) :
    Everywhere Clause.bodies Clause.Filled (run steps draft).clauses ↔
      Everywhere Clause.bodies Clause.Filled draft.clauses ∧
        Everywhere Step.bodies Step.Supplies steps := by
  induction steps generalizing draft with
  | nil => exact (and_iff_left everywhere_nil).symm
  | cons first rest ih =>
      obtain ⟨hfirst, hrest⟩ := List.forall_mem_cons.mp hsteps
      obtain ⟨hhead, htail⟩ := faults_append_eq_nil_iff.mp hcalm
      rw [run_cons, ih _ hrest htail, hfirst draft hhead, everywhere_singleton, everywhere_cons,
        and_assoc]

theorem fills_inner {steps : List Step} (hsteps : ∀ s ∈ steps, FillsBy s) {scope : Scope}
    (hcalm : failures steps (draft.inner scope) = []) :
    Fills steps (run steps (draft.inner scope)).clauses where
  outline := run_outline_of_mirrors _ (fun s _ => mirrors s) hcalm
  filled := (run_filled_of_fillsBy _ hsteps hcalm).trans (and_iff_right everywhere_nil)

theorem fills_branches {branches : List (List Step)}
    (hbranches : ∀ branch ∈ branches, ∀ s ∈ branch, FillsBy s)
    (hcalm : faults (branchEvents branches draft) = []) :
    List.Forall₂ Fills branches (runBranches branches draft).2 := by
  induction branches generalizing draft with
  | nil => exact .nil
  | cons branch rest ih =>
      obtain ⟨hbranch, hrest⟩ := List.forall_mem_cons.mp hbranches
      obtain ⟨hhead, htail⟩ := faults_append_eq_nil_iff.mp hcalm
      exact .cons (fills_inner draft hbranch hhead) (ih _ hrest htail)

theorem fillsBy (s : Step) : FillsBy s := by
  induction s with
  | token => exact fun draft _ => (and_iff_left (supplied_of_bare rfl rfl)).symm
  | entity typeName =>
      intro draft _
      simp only [step, issue, entity]
      cases draft.catalog.describe typeName <;>
        exact (and_iff_left (supplied_of_bare rfl rfl)).symm
  | call c => exact fillsBy_call c
  | subquery body ihbody =>
      intro draft hcalm
      obtain ⟨hdepth, hbody, hpush⟩ := subquery_calm hcalm
      rw [step_subquery, hdepth]
      exact filled_push_iff (draft.absorbScope _) hpush rfl
        (.cons (fills_inner draft ihbody hbody) .nil)
  | forEach item list updates =>
      intro draft hcalm
      obtain ⟨hdepth, texts, known, -, hheading, hupdates, hpush⟩ := forEach_calm hcalm
      rw [← events_ofUpdates] at hupdates
      have hinside := fills_inner { draft with known }
        (Step.forall_mem_ofUpdates fillsBy_call updates) hupdates
      simp only [step_forEach, hdepth, hheading]
      exact filled_push_iff (s := .forEach item list updates)
        ({ draft with known }.absorbScope _) hpush rfl (.cons hinside .nil)
  | union mode branches ihbranches =>
      intro draft hcalm
      obtain ⟨hdepth, hbranches, hpush⟩ := union_calm hcalm
      rw [step_union, hdepth, ← runBranches_clauses draft branches]
      exact filled_push_iff _ hpush rfl (fills_branches draft ihbranches hbranches)

/-! ## Whole queries -/

theorem appended_nonempty : Appended fun clause => clause.isEmpty = false where
  call _ _ _ _ _ := id
  subquery _ hbody := Bool.eq_false_iff.mpr fun h => hbody (List.isEmpty_iff.mp h)
  forEach _ _ _ _ _ _ _ hupdates := Bool.eq_false_iff.mpr fun h => hupdates (List.isEmpty_iff.mp h)
  union _ _ hbranches := Bool.eq_false_iff.mpr fun h => hbranches (List.isEmpty_iff.mp h)

/-- In a draft without a fault no clause is empty, in whatever block it stands. Nothing else is
empty either, no block and no list of labels, just when the program supplies all of these. -/
theorem filled_iff_supplied {catalog : Catalog} {settings : Settings} {steps : List Step}
    (h : (run steps { catalog, settings }).fault = none) :
    Everywhere Clause.bodies (fun clause => clause.isEmpty = false)
        (run steps { catalog, settings }).clauses ∧
      (Everywhere Clause.bodies Clause.Filled (run steps { catalog, settings }).clauses ↔
        Everywhere Step.bodies Step.Supplies steps) := by
  have hcalm : failures steps { catalog, settings } = [] := by
    rw [run_fault] at h
    simpa using h
  refine ⟨run_everywhere _ appended_nonempty steps everywhere_nil, ?_⟩
  rw [run_filled_of_fillsBy _ (fun s _ => fillsBy s) hcalm, and_iff_right everywhere_nil]

/-- Blocks of all kinds, in which labels are set and removed. -/
def suppliedSteps : List Step :=
  [.union .all
      [[.call (.merge { start := { identifier := .name "n" } }),
          .call (.onMerge .created [.labels (.name "n") ["New"]])],
        [.subquery [.call (.update (.remove [.labels (.name "n") ["Old", "Stale"]]))]]],
    .forEach (.name "x") (.name "xs") [.set [.labels (.name "x") ["Seen"]]]]

theorem filled_iff_supplied_suppliedSteps :
    (run suppliedSteps {}).fault = none ∧
      Everywhere Clause.bodies Clause.Filled (run suppliedSteps {}).clauses := by
  have hsupplied : Everywhere Step.bodies Step.Supplies suppliedSteps := by
    simp [suppliedSteps, everywhere_cons, everywhere_nil, Step.supplies_iff, Step.bodies,
      Step.ofUpdates, Step.outlineAll, Step.outline, Step.labelLists, Call.labelLists,
      Update.labelLists, Assignment.labelLists, Removal.labelLists]
  exact ⟨by decide, (filled_iff_supplied rfl).2.mpr hsupplied⟩

/-- A union of branches without clauses. -/
def hollowBranches : List Step :=
  [.union .distinct [[], []]]

/-- An update that sets no labels on `n`. -/
def hollowLabels : List Step :=
  [.call (.update (.set [.labels (.name "n") []]))]

/-- Neither of them fails: `UNION` is written, and `SET n:`. -/
theorem not_filled_hollow :
    ((run hollowBranches {}).fault = none ∧
        Clause.textAll 0 (run hollowBranches {}).clauses = "UNION" ∧
        ¬ Everywhere Clause.bodies Clause.Filled (run hollowBranches {}).clauses) ∧
      (run hollowLabels {}).fault = none ∧
        Clause.textAll 0 (run hollowLabels {}).clauses = "SET n:" ∧
        ¬ Everywhere Clause.bodies Clause.Filled (run hollowLabels {}).clauses := by
  refine ⟨⟨by decide, by decide +kernel, fun h => ?_⟩, by decide, by decide +kernel, fun h => ?_⟩
  · have hunion : (Clause.union .distinct [[], []]).Filled := (everywhere_iff.mp h _ (.head _)).1
    exact hunion.bodies [] (.head _) rfl
  · have hset : (Clause.update (.set [.labels "n" []])).Filled :=
      (everywhere_iff.mp h _ (.head _)).1
    exact hset.labels [] (.head _) rfl

end Draft

end GraphQuery
