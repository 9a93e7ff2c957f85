import GraphQuery.Proofs.Draft.Equations
import GraphQuery.Proofs.Draft.Resolving

/-! # Histories

What a draft holds already makes no difference to what is built next: a run goes on as it would
with nothing built, and its clauses, parameters and fault come after those there are. -/

namespace GraphQuery

namespace Draft

/-- The later draft, with what was built before in front of it. -/
def onto (base later : Draft) : Draft :=
  { later with
    known := later.known.behind base.known.parameters
    clauses := base.clauses ++ later.clauses
    fault := base.fault <|> later.fault }

/-- The draft with its variables but nothing built. -/
def cleared (draft : Draft) : Draft :=
  { draft with
    known := { scope := draft.known.scope }
    clauses := []
    fault := none }

theorem onto_cleared (draft : Draft) : draft.onto draft.cleared = draft := by
  simp [onto, cleared, Vocabulary.behind, EmptyCollection.emptyCollection, OrderedMap.empty]

/-! ## Pieces of a step -/

variable (base later : Draft)

theorem fail_onto (fault : Fault) :
    (base.onto later).fail fault = base.onto (later.fail fault) := by
  simp [onto, fail]

theorem push_onto (clause : Clause) :
    (base.onto later).push clause = base.onto (later.push clause) := by
  unfold push
  split
  · exact fail_onto base later _
  · simp [onto]

theorem resolving_onto {α : Type} {action : Resolve α} (haction : Resolve.Scoped action) :
    (base.onto later).resolving action =
      ((later.resolving action).1, base.onto (later.resolving action).2) := by
  have hbehind := haction.apply_behind base.known.parameters later.known
  unfold resolving
  simp only [onto, hbehind]
  cases action later.known <;> rfl

theorem absorb_onto (inside : Draft) :
    (base.onto later).absorb inside = base.onto (later.absorb inside) := by
  simp [onto, absorb, Vocabulary.behind, OrderedMap.insertAll_insertAll, Option.or_assoc]

theorem absorbScope_onto (inside : Draft) :
    (base.onto later).absorbScope inside = base.onto (later.absorbScope inside) := by
  unfold absorbScope
  rw [absorb_onto]
  rfl

theorem runBranches_onto (branches : List (List Step)) :
    runBranches branches (base.onto later) =
      (base.onto (runBranches branches later).1, (runBranches branches later).2) := by
  induction branches generalizing later with
  | nil => rfl
  | cons branch rest ih =>
      have hinner : (base.onto later).inner {} = later.inner {} := rfl
      simp only [runBranches, hinner, absorb_onto, ih]

/-! ## Steps and runs -/

theorem call_onto (call : Call) : (base.onto later).call call = base.onto (later.call call) := by
  unfold Draft.call
  rw [resolving_onto base later (.clause call)]
  rcases later.resolving call.clause with ⟨_ | clause, middle⟩
  · exact fail_onto base middle _
  · exact push_onto base middle clause

theorem step_onto (s : Step) : step s (base.onto later) = base.onto (step s later) := by
  have hdepth : (base.onto later).depthFault? = later.depthFault? := rfl
  cases s with
  | token => rfl
  | entity typeName =>
      have hcatalog : (base.onto later).catalog = later.catalog := rfl
      simp only [step, issue, entity, hcatalog]
      cases later.catalog.describe typeName <;> rfl
  | call call => exact call_onto base later call
  | subquery body =>
      have hinner : (base.onto later).inner (base.onto later).known.scope =
          later.inner later.known.scope := rfl
      simp only [step_subquery, hdepth, hinner, absorbScope_onto, push_onto]
      cases later.depthFault? with
      | some fault => exact fail_onto base later fault
      | none => rfl
  | forEach item list updates =>
      simp only [step_forEach, hdepth]
      cases later.depthFault? with
      | some fault => exact fail_onto base later fault
      | none =>
          simp only [resolving_onto base later (.heading item list)]
          rcases later.resolving (heading item list) with ⟨_ | ⟨item, list⟩, middle⟩
          · exact fail_onto base middle _
          · have hinner : (base.onto middle).inner (base.onto middle).known.scope =
                middle.inner middle.known.scope := rfl
            simp only [hinner, absorbScope_onto, push_onto]
  | union mode branches =>
      simp only [step_union, hdepth, runBranches_onto, push_onto]
      cases later.depthFault? with
      | some fault => exact fail_onto base later fault
      | none => rfl

theorem run_onto (steps : List Step) :
    run steps (base.onto later) = base.onto (run steps later) := by
  induction steps generalizing later with
  | nil => rfl
  | cons first rest ih => rw [run_cons, run_cons, step_onto, ih]

/-- A run begun with what a draft knows, and then put behind it. -/
theorem run_eq_onto (steps : List Step) (draft : Draft) :
    run steps draft = draft.onto (run steps draft.cleared) := by
  rw [← run_onto, onto_cleared]

/-! ## What runs leave alone -/

/-- A draft later in a run: in the same place, with the tokens issued before. -/
structure Continues (draft after : Draft) : Prop where
  catalog : after.catalog = draft.catalog
  settings : after.settings = draft.settings
  depth : after.depth = draft.depth
  issued : draft.issued ≤ after.issued

namespace Continues

variable {draft middle after : Draft}

@[refl] theorem refl (draft : Draft) : draft.Continues draft := ⟨rfl, rfl, rfl, Nat.le_refl _⟩

theorem trans (h : draft.Continues middle) (h' : middle.Continues after) :
    draft.Continues after where
  catalog := h'.catalog.trans h.catalog
  settings := h'.settings.trans h.settings
  depth := h'.depth.trans h.depth
  issued := Nat.le_trans h.issued h'.issued

theorem push (h : draft.Continues after) (clause : Clause) :
    draft.Continues (after.push clause) := by
  unfold Draft.push
  split
  · exact ⟨h.catalog, h.settings, h.depth, h.issued⟩
  · exact ⟨h.catalog, h.settings, h.depth, h.issued⟩

theorem fail (h : draft.Continues after) (fault : Fault) : draft.Continues (after.fail fault) :=
  ⟨h.catalog, h.settings, h.depth, h.issued⟩

theorem resolving {α : Type} {action : Resolve α} {result : Except Fault α}
    (h : draft.resolving action = (result, after)) : draft.Continues after := by
  obtain ⟨known, rfl⟩ := resolving_known h
  exact ⟨rfl, rfl, rfl, Nat.le_refl _⟩

theorem absorb (draft inside : Draft) : draft.Continues (draft.absorb inside) :=
  ⟨rfl, rfl, rfl, Nat.le_max_left _ _⟩

theorem absorbScope (draft inside : Draft) : draft.Continues (draft.absorbScope inside) :=
  ⟨rfl, rfl, rfl, Nat.le_max_left _ _⟩

theorem runBranches (branches : List (List Step)) (draft : Draft) :
    draft.Continues (Draft.runBranches branches draft).1 := by
  induction branches generalizing draft with
  | nil => exact refl draft
  | cons branch rest ih => exact (absorb draft _).trans (ih _)

theorem call (draft : Draft) (call : Call) : draft.Continues (draft.call call) := by
  unfold Draft.call
  rcases hresult : draft.resolving call.clause with ⟨_ | clause, middle⟩
  · exact fail (resolving hresult) _
  · exact push (resolving hresult) clause

theorem step (s : Step) (draft : Draft) : draft.Continues (step s draft) := by
  cases s with
  | token => exact ⟨rfl, rfl, rfl, Nat.le_succ _⟩
  | entity typeName =>
      simp only [Draft.step, issue, entity]
      cases draft.catalog.describe typeName with
      | ok descriptor => exact ⟨rfl, rfl, rfl, Nat.le_succ _⟩
      | error _ => exact refl draft
  | call c => exact call draft c
  | subquery body =>
      rw [step_subquery]
      split
      · exact fail (refl draft) _
      · exact push (absorbScope draft _) _
  | forEach item list updates =>
      rw [step_forEach]
      split
      · exact fail (refl draft) _
      · rcases hresult : draft.resolving (heading item list) with ⟨_ | ⟨item, list⟩, middle⟩
        · exact fail (resolving hresult) _
        · exact push ((resolving hresult).trans (absorbScope middle _)) _
  | union mode branches =>
      rw [step_union]
      split
      · exact fail (refl draft) _
      · exact push (runBranches branches draft) _

theorem run (steps : List Step) (draft : Draft) : draft.Continues (run steps draft) := by
  induction steps generalizing draft with
  | nil => exact refl draft
  | cons first rest ih => exact (step first draft).trans (ih _)

end Continues

end Draft

end GraphQuery
