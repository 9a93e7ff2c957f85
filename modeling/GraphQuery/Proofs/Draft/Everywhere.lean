import GraphQuery.Proofs.Clause.Placement
import GraphQuery.Proofs.Draft.Outline
import GraphQuery.Proofs.Draft.Uses

/-! # Clauses everywhere

What can be said of every clause a query is made of, in whatever block it stands. It is enough to
say it of a clause when it is appended, given what can be said of the uses it comes from. -/

namespace GraphQuery

/-! ## Lists inside lists -/

/-- The property holds of all in a list and in the lists inside these, at any depth. -/
inductive Everywhere {α : Type} (inside : α → List (List α)) (P : α → Prop) : List α → Prop
  | intro {list : List α} (here : ∀ item ∈ list, P item)
      (deeper : ∀ item ∈ list, ∀ body ∈ inside item, Everywhere inside P body) :
      Everywhere inside P list

section

variable {α : Type} {inside : α → List (List α)} {P : α → Prop}

theorem everywhere_iff {list : List α} :
    Everywhere inside P list ↔
      ∀ item ∈ list, P item ∧ ∀ body ∈ inside item, Everywhere inside P body :=
  ⟨fun ⟨here, deeper⟩ item hitem => ⟨here item hitem, deeper item hitem⟩,
    fun h => ⟨fun item hitem => (h item hitem).1, fun item hitem => (h item hitem).2⟩⟩

theorem everywhere_nil : Everywhere inside P [] := .intro nofun nofun

theorem everywhere_append {list others : List α} :
    Everywhere inside P (list ++ others) ↔
      Everywhere inside P list ∧ Everywhere inside P others := by
  rw [everywhere_iff, List.forall_mem_append, ← everywhere_iff, ← everywhere_iff]

theorem everywhere_cons {item : α} {rest : List α} :
    Everywhere inside P (item :: rest) ↔
      (P item ∧ ∀ body ∈ inside item, Everywhere inside P body) ∧ Everywhere inside P rest := by
  rw [everywhere_iff, List.forall_mem_cons, ← everywhere_iff]

theorem everywhere_singleton {item : α} :
    Everywhere inside P [item] ↔ P item ∧ ∀ body ∈ inside item, Everywhere inside P body := by
  rw [everywhere_cons, and_iff_left everywhere_nil]

end

theorem Clause.outlineAll_eq_nil_iff {clauses : List Clause} :
    Clause.outlineAll clauses = [] ↔ clauses = [] := by
  cases clauses with
  | nil => exact iff_of_true rfl rfl
  | cons clause rest => exact iff_of_false (List.cons_ne_nil _ _) (List.cons_ne_nil _ _)

/-- A clause whose outline has no blocks has none itself. -/
theorem Clause.bodies_eq_nil {clause : Clause} {keyword : Keyword}
    (h : clause.outline = .node keyword []) : clause.bodies = [] := by
  cases clause with
  | subquery body => cases h
  | forEach item list updates => cases h
  | union mode branches =>
      cases branches with
      | nil => rfl
      | cons branch rest => cases h
  | _ => rfl

theorem Call.bodies_of_clause {call : Call} {known after : Vocabulary} {clause : Clause}
    (h : call.clause known = .ok clause after) : clause.bodies = [] :=
  Clause.bodies_eq_nil (Resolve.yields_clause call known clause after h)

namespace Draft

variable {Good : Moment → Prop} {P : Clause → Prop} (draft : Draft)

/-! ## Appending -/

/-- Whatever clause is appended has the property, provided that the uses it comes from are good:
what a call resolves to, and each kind of block. -/
structure AppendedBy (Good : Moment → Prop) (P : Clause → Prop) : Prop where
  call : ∀ (call : Call) {known clause after}, call.clause known = .ok clause after →
    (∀ moment ∈ moments call.sites known, Good moment) → clause.isEmpty = false → P clause
  subquery : ∀ body, body ≠ [] → P (.subquery body)
  forEach : ∀ item list {known texts after}, heading item list known = .ok texts after →
    (∀ moment ∈ moments [list.site, item.site] known, Good moment) →
      ∀ updates, updates ≠ [] → P (.forEach texts.1 texts.2 updates)
  union : ∀ mode branches, branches ≠ [] → P (.union mode branches)

theorem push_everywhere (h : Everywhere Clause.bodies P draft.clauses) {clause : Clause}
    (hclause : clause.isEmpty = false → P clause)
    (hbodies : ∀ body ∈ clause.bodies, Everywhere Clause.bodies P body) :
    Everywhere Clause.bodies P (draft.push clause).clauses := by
  unfold push
  split
  · exact h
  · next hsome =>
      have hfilled : clause.isEmpty = false := Bool.eq_false_iff.mpr hsome
      exact everywhere_append.mpr ⟨h, everywhere_singleton.mpr ⟨hclause hfilled, hbodies⟩⟩

/-- Where its uses are good, the step leaves nothing but clauses with the property. -/
def HoldsBy (Good : Moment → Prop) (P : Clause → Prop) (s : Step) : Prop :=
  ∀ draft : Draft, (∀ moment ∈ stepUses s draft, Good moment) →
    Everywhere Clause.bodies P draft.clauses →
      Everywhere Clause.bodies P (step s draft).clauses

theorem holdsBy_call (hP : AppendedBy Good P) (c : Call) : HoldsBy Good P (.call c) := by
  intro draft hgood h
  unfold step call
  rcases hresult : draft.resolving c.clause with ⟨fault | clause, middle⟩
  · obtain ⟨known, rfl⟩ := resolving_known hresult
    exact h
  · obtain ⟨known, hclause, rfl⟩ := resolving_ok hresult
    refine push_everywhere { draft with known } h (hP.call c hclause hgood) ?_
    rw [Call.bodies_of_clause hclause]
    exact List.forall_mem_nil _

theorem run_everywhere_of_holdsBy {steps : List Step} (hsteps : ∀ s ∈ steps, HoldsBy Good P s)
    (hgood : ∀ moment ∈ uses steps draft, Good moment)
    (h : Everywhere Clause.bodies P draft.clauses) :
    Everywhere Clause.bodies P (run steps draft).clauses := by
  induction steps generalizing draft with
  | nil => exact h
  | cons first rest ih =>
      obtain ⟨hfirst, hrest⟩ := List.forall_mem_cons.mp hsteps
      obtain ⟨hhead, htail⟩ := List.forall_mem_append.mp hgood
      exact ih _ hrest htail (hfirst draft hhead h)

theorem inner_everywhere {steps : List Step} (hsteps : ∀ s ∈ steps, HoldsBy Good P s)
    (scope : Scope) (hgood : ∀ moment ∈ uses steps (draft.inner scope), Good moment) :
    Everywhere Clause.bodies P (run steps (draft.inner scope)).clauses :=
  run_everywhere_of_holdsBy (draft.inner scope) hsteps hgood everywhere_nil

theorem runBranches_everywhere {branches : List (List Step)}
    (hbranches : ∀ branch ∈ branches, ∀ s ∈ branch, HoldsBy Good P s)
    (hgood : ∀ moment ∈ branchUses branches draft, Good moment) :
    ∀ body ∈ (runBranches branches draft).2, Everywhere Clause.bodies P body := by
  induction branches generalizing draft with
  | nil => exact List.forall_mem_nil _
  | cons branch rest ih =>
      obtain ⟨hbranch, hrest⟩ := List.forall_mem_cons.mp hbranches
      obtain ⟨hhead, htail⟩ := List.forall_mem_append.mp hgood
      exact List.forall_mem_cons.mpr ⟨inner_everywhere draft hbranch {} hhead, ih _ hrest htail⟩

theorem holdsBy (hP : AppendedBy Good P) (s : Step) : HoldsBy Good P s := by
  induction s with
  | token => exact fun draft _ h => h
  | entity typeName =>
      intro draft _ h
      simp only [step, issue, entity]
      cases draft.catalog.describe typeName <;> exact h
  | call c => exact holdsBy_call hP c
  | subquery body ihbody =>
      intro draft hgood h
      rw [stepUses] at hgood
      rw [step_subquery]
      cases hdepth : draft.depthFault? with
      | some fault => exact h
      | none =>
          rw [hdepth] at hgood
          have hbody := inner_everywhere draft ihbody draft.known.scope hgood
          refine push_everywhere (draft.absorbScope _) h (fun hsome => hP.subquery _ ?_)
            (List.forall_mem_singleton.mpr hbody)
          simpa [Clause.isEmpty] using hsome
  | forEach item list updates =>
      intro draft hgood h
      rw [stepUses] at hgood
      rw [step_forEach]
      cases hdepth : draft.depthFault? with
      | some fault => exact h
      | none =>
          rw [hdepth] at hgood
          obtain ⟨hheading, hgood⟩ := List.forall_mem_append.mp hgood
          rcases hresult : draft.resolving (heading item list) with ⟨fault | texts, middle⟩
          · obtain ⟨known, rfl⟩ := resolving_known hresult
            exact h
          · obtain ⟨known, htexts, rfl⟩ := resolving_ok hresult
            simp only [hresult, ← uses_ofUpdates] at hgood
            have hupdates := inner_everywhere { draft with known }
              (Step.forall_mem_ofUpdates (holdsBy_call hP) updates) known.scope hgood
            refine push_everywhere ({ draft with known }.absorbScope _) h
              (fun hsome => hP.forEach item list htexts hheading _ ?_)
              (List.forall_mem_singleton.mpr hupdates)
            simpa [Clause.isEmpty] using hsome
  | union mode branches ihbranches =>
      intro draft hgood h
      rw [stepUses] at hgood
      rw [step_union]
      cases hdepth : draft.depthFault? with
      | some fault => exact h
      | none =>
          rw [hdepth] at hgood
          rw [← runBranches_clauses draft branches] at h
          refine push_everywhere _ h (fun hsome => hP.union mode _ ?_)
            (runBranches_everywhere draft ihbranches hgood)
          simpa [Clause.isEmpty] using hsome

/-- What holds of every clause when it is appended, provided that its uses are good, holds of every
clause of a query all of whose uses are. -/
theorem run_everywhere_of_good (hP : AppendedBy Good P) (steps : List Step)
    (hgood : ∀ moment ∈ uses steps draft, Good moment)
    (h : Everywhere Clause.bodies P draft.clauses) :
    Everywhere Clause.bodies P (run steps draft).clauses :=
  run_everywhere_of_holdsBy draft (fun s _ => holdsBy hP s) hgood h

/-- Whatever clause is appended has the property, whatever it comes from. -/
structure Appended (P : Clause → Prop) : Prop where
  call : ∀ call : Call, Resolve.Yields (fun clause => clause.isEmpty = false → P clause) call.clause
  subquery : ∀ body, body ≠ [] → P (.subquery body)
  forEach : ∀ item list,
    Resolve.Yields (fun texts => ∀ updates, updates ≠ [] → P (.forEach texts.1 texts.2 updates))
      (heading item list)
  union : ∀ mode branches, branches ≠ [] → P (.union mode branches)

theorem Appended.appendedBy (hP : Appended P) : AppendedBy (fun _ => True) P where
  call call _ _ _ hclause _ := hP.call call _ _ _ hclause
  subquery := hP.subquery
  forEach item list _ _ _ htexts _ := hP.forEach item list _ _ _ htexts
  union := hP.union

/-- What holds of every clause when it is appended holds of every clause of a query. -/
theorem run_everywhere (hP : Appended P) (steps : List Step)
    (h : Everywhere Clause.bodies P draft.clauses) :
    Everywhere Clause.bodies P (run steps draft).clauses :=
  run_everywhere_of_good draft hP.appendedBy steps (fun _ _ => trivial) h

end Draft

end GraphQuery
